/-
Copies one after the other do what copies at once do.

While copies are put in order, the books are kept: how often a waiting
destination is read, and which copies may be done since nobody reads their
destination (`Booked`). Frames have no part in that. And each copy still waiting
finds in its source what its original source held at the start: a destination
is written only when no waiting copy reads it, and where a cycle is broken the
readers follow the saved value (`Ordering`). Doing a ready copy keeps both, and
so does breaking a cycle. Each copy costs at most one break and one assignment,
which bounds both the steps and the fresh values (`sequentialize_performs`,
`sequentialize_draws`).

Where a destination is repeated, one of its copies counts: the last that is not
idle (`mem_effective`). The assignments do what the copies that count do, and
that is all the copies where destinations are distinct.
-/
import Mathlib
import MirBackend.Pass.ParallelCopy
import MirBackend.Proofs.Interp.Frame

namespace MirBackend

open Interp

namespace ParallelCopy

/-- Copies one after the other. -/
def assignAll (fr : Frame) : List Copy → Option Frame
  | [] => some fr
  | c :: cs => (look fr c.source).bind fun x =>
    assignAll (fr.insert c.dest x) cs

/-- Copies in a row are done one after the other. -/
theorem assignAll_append (fr : Frame) (cs ds : List Copy) :
    assignAll fr (cs ++ ds) = (assignAll fr cs).bind fun fr =>
      assignAll fr ds := by
  induction cs generalizing fr with
  | nil => rfl
  | cons c cs ih =>
      simp only [List.cons_append, assignAll]
      cases look fr c.source with
      | none => rfl
      | some x => exact ih _

-- ================================================================== sorting

-- A list kept by turns has the copies put into it, each once.
theorem mem_insertByTurn {c d : Copy} {cs : List Copy} :
    d ∈ c.insertByTurn cs ↔ d = c ∨ d ∈ cs := by
  induction cs with
  | nil => simp [Copy.insertByTurn]
  | cons e cs ih =>
      unfold Copy.insertByTurn
      split
      · simp
      · rw [List.mem_cons, ih, List.mem_cons]
        exact or_left_comm

theorem nodup_insertByTurn {c : Copy} {cs : List Copy}
    (hc : c ∉ cs) (h : cs.Nodup) : (c.insertByTurn cs).Nodup := by
  induction cs with
  | nil => simp [Copy.insertByTurn]
  | cons e cs ih =>
      obtain ⟨he, hcs⟩ := List.nodup_cons.mp h
      rw [List.mem_cons, not_or] at hc
      unfold Copy.insertByTurn
      split
      · exact List.nodup_cons.mpr ⟨by simpa using hc, h⟩
      · refine List.nodup_cons.mpr ⟨?_, ih hc.2 hcs⟩
        rw [mem_insertByTurn, not_or]
        exact ⟨fun heq => hc.1 heq.symm, he⟩

theorem insertAllByTurn_spec {cs rs : List Copy} (h : (cs ++ rs).Nodup) :
    (cs.foldl (fun r c => c.insertByTurn r) rs).Nodup
      ∧ ∀ d, d ∈ cs.foldl (fun r c => c.insertByTurn r) rs
      ↔ d ∈ cs ∨ d ∈ rs := by
  induction cs generalizing rs with
  | nil => exact ⟨h, by simp⟩
  | cons c cs ih =>
      rw [List.cons_append, List.nodup_cons, List.mem_append, not_or] at h
      have hnd : (cs ++ c.insertByTurn rs).Nodup := by
        rw [List.nodup_append] at h ⊢
        refine ⟨h.2.1, nodup_insertByTurn h.1.2 h.2.2.1,
          fun a ha b hb hab => ?_⟩
        rcases mem_insertByTurn.mp hb with rfl | hb
        · exact h.1.1 (hab ▸ ha)
        · exact h.2.2.2 a ha b hb hab
      obtain ⟨h₁, h₂⟩ := ih hnd
      refine ⟨h₁, fun d => ?_⟩
      rw [List.foldl_cons, h₂, mem_insertByTurn, List.mem_cons,
        or_assoc, or_left_comm]

/-- The first copy by turn is one of them. -/
theorem first?_spec (cs : List Copy) :
    match Copy.first? cs with
    | none => cs = []
    | some c => c ∈ cs := by
  induction cs with
  | nil => rfl
  | cons c cs ih =>
      unfold Copy.first?
      cases h : Copy.first? cs with
      | none => exact List.mem_cons_self
      | some d =>
          rw [h] at ih
          dsimp only
          split
          · exact List.mem_cons_of_mem _ ih
          · exact List.mem_cons_self

-- ================================================================ counting

/-- Copies for distinct destinations are determined by them. -/
theorem eq_of_dest_eq {cs : List Copy} (h : (cs.map (·.dest)).Nodup)
    {c d : Copy} (hc : c ∈ cs) (hd : d ∈ cs) (heq : c.dest = d.dest) : c = d :=
  List.inj_on_of_nodup_map h hc hd heq

/-- Taking out one copy. -/
theorem perm_cons_filter {cs : List Copy} (h : (cs.map (·.dest)).Nodup)
    {c : Copy} (hc : c ∈ cs) : cs.Perm (c :: cs.filter (·.dest ≠ c.dest)) := by
  have hnd : cs.Nodup := List.Nodup.of_map _ h
  have hnd' : (c :: cs.filter (·.dest ≠ c.dest)).Nodup := by
    refine List.nodup_cons.mpr ⟨fun hm => ?_, hnd.filter _⟩
    simpa using (List.mem_filter.mp hm).2
  refine (List.perm_ext_iff_of_nodup hnd hnd').mpr fun d => ?_
  rw [List.mem_cons, List.mem_filter, decide_eq_true_eq]
  constructor
  · intro hd
    by_cases heq : d.dest = c.dest
    · exact Or.inl (eq_of_dest_eq h hd hc heq)
    · exact Or.inr ⟨hd, heq⟩
  · intro hd
    rcases hd with rfl | hd
    · exact hc
    · exact hd.1

/-- How many copies read a value. -/
def readCount (cs : List Copy) (v : ValueId) : Nat :=
  cs.countP (·.source = .value v)

/-- A value without readers is the source of no copy. -/
theorem readCount_eq_zero {cs : List Copy} {v : ValueId} :
    readCount cs v = 0 ↔ ∀ c ∈ cs, c.source ≠ .value v := by
  simp [readCount, List.countP_eq_zero]

/-- Taking out one copy takes out its read. -/
theorem readCount_filter {cs : List Copy} (h : (cs.map (·.dest)).Nodup)
    {c : Copy} (hc : c ∈ cs) (v : ValueId) :
    readCount cs v = readCount (cs.filter (·.dest ≠ c.dest)) v
      + if c.source = .value v then 1 else 0 := by
  rw [readCount, (perm_cons_filter h hc).countP_eq, List.countP_cons]
  simp [readCount]

/-- Counting adds the occurrences to what was there. -/
theorem getD_countInto (vs : List ValueId)
    (m : Std.ExtTreeMap ValueId Int) (v : ValueId) :
    (vs.foldl (fun m v => m.insert v (m.getD v 0 + 1)) m).getD v 0
      = m.getD v 0 + vs.count v := by
  induction vs generalizing m with
  | nil => simp
  | cons u vs ih =>
      rw [List.foldl_cons, ih, Std.ExtTreeMap.getD_insert, List.count_cons]
      by_cases huv : u = v
      · simp [huv]
        omega
      · simp [huv]

/-- At the start the readers counted are those of the copies. -/
theorem readersOf_start (f : Func) (cs : List Copy) (v : ValueId) :
    (Sequencing.start f cs).readersOf v = readCount
    (Sequencing.effective cs) v := by
  show (Sequencing.countReaders (Sequencing.effective cs)).getD v 0 = _
  unfold Sequencing.countReaders
  rw [getD_countInto]
  have hcount : (Operand.ids ((Sequencing.effective cs).map (·.source))).count v
      = readCount (Sequencing.effective cs) v := by
    induction Sequencing.effective cs with
    | nil => rfl
    | cons c cs ih =>
        rw [readCount, List.countP_cons, ← readCount, ← ih,
          List.map_cons, Operand.ids, List.filterMap_cons]
        cases c.source with
        | value u => simp [Operand.ids, Operand.id?, List.count_cons]
        | _ => simp [Operand.ids, Operand.id?]
  rw [hcount]
  simp

-- =============================================================== invariant

/-- The books are right: waiting copies have distinct destinations, their
readers are counted, and those without readers are ready. Values from `bound` on
are fresh. -/
structure Booked (bound : Int) (o : Sequencing) : Prop where
  distinct : (o.waiting.map (·.dest)).Nodup
  low : ∀ c ∈ o.waiting, c.dest.toInt < bound
  readers : ∀ c ∈ o.waiting, o.readersOf c.dest = readCount o.waiting c.dest
  ready : ∀ c, c ∈ o.ready ↔ c ∈ o.waiting ∧ readCount o.waiting c.dest = 0
  readyNodup : o.ready.Nodup
  fresh : bound ≤ o.func.nextValue.toInt
  below : ∀ c ∈ o.waiting, ∀ v, c.source = .value v →
    v.toInt < o.func.nextValue.toInt

/-- While the copies `cs` are put in order, starting in the frame `fr₀`: the
assignments so far lead to `fr`, and there every waiting copy still finds what
it is to assign. -/
structure Ordering (cs : List Copy) (bound : Int) (fr₀ : Frame)
    (o : Sequencing) (fr : Frame) : Prop extends Booked bound o where
  done : assignAll fr₀ o.done = some fr
  asked : ∀ c ∈ o.waiting, ∃ c₀ ∈ cs, c₀.dest = c.dest
    ∧ look fr c.source = look fr₀ c₀.source
  served : ∀ c₀ ∈ cs, (∀ c ∈ o.waiting, c.dest ≠ c₀.dest) →
    fr[c₀.dest]? = look fr₀ c₀.source
  kept : ∀ v : ValueId, v.toInt < bound →
    (∀ c ∈ cs, c.dest ≠ v) → fr[v]? = fr₀[v]?

/-- What a parallel copy asks for: distinct destinations below the bound, and a
value for every source. -/
structure Askable (cs : List Copy) (bound : Int) (fr₀ : Frame) : Prop where
  distinct : (cs.map (·.dest)).Nodup
  low : ∀ c ∈ cs, c.dest.toInt < bound
  defined : ∀ c ∈ cs, (look fr₀ c.source).isSome = true

-- ============================================================ doing a copy

namespace Sequencing

variable {o : Sequencing} {c : Copy} {ready : List Copy}

/-- What doing a copy changes, case by case. -/
theorem emit_eq : o.emit c ready =
    { o with
      waiting := o.waiting.filter (·.dest ≠ c.dest)
      done := o.done ++ [c]
      readers := (o.emit c ready).readers
      ready := (o.emit c ready).ready } := by
  unfold emit
  dsimp only
  split
  · rfl
  · split
    · split <;> rfl
    · rfl

/-- Emitting a copy takes one from its source's. -/
theorem readersOf_emit (v : ValueId) :
    (o.emit c ready).readersOf v = o.readersOf v - if c.source
      = .value v then 1 else 0 := by
  unfold emit
  dsimp only
  cases hs : c.source with
  | value u =>
      have hins : ∀ m : Std.ExtTreeMap ValueId Int,
          (m.insert u (m.getD u 0 - 1)).getD v 0
          = m.getD v 0 - if Operand.value u = .value v then 1 else 0 := by
        intro m
        rw [Std.ExtTreeMap.getD_insert]
        by_cases huv : u = v
        · simp [huv]
        · simp [huv]
      simp only [Operand.id?]
      split
      · split <;> exact hins o.readers
      · exact hins o.readers
  | _ => simp [Operand.id?, readersOf]

/-- The copies that are ready afterwards: those that were, and one whose
destination lost its last reader. -/
theorem ready_emit : (o.emit c ready).ready =
    match c.source.id?.bind fun v => (o.waiting.filter (·.dest ≠ c.dest)).find?
      (·.dest = v) with
    | none => ready
    | some p => if o.readersOf p.dest - 1
        = 0 then p.insertByTurn ready else ready := by
  unfold emit
  dsimp only
  cases c.source.id? with
  | none => rfl
  | some u =>
      rw [Option.bind_some]
      dsimp only [waitingFor]
      cases hp : (o.waiting.filter (·.dest ≠ c.dest)).find? (·.dest = u) with
      | none => rfl
      | some p =>
          have hdest : p.dest = u := by simpa using List.find?_some hp
          dsimp only
          rw [hdest]
          split
          · next hz => exact (if_pos hz).symm
          · next hz => exact (if_neg hz).symm

end Sequencing

variable {cs : List Copy} {bound : Int} {fr₀ fr : Frame}
  {o : Sequencing} {c : Copy}

/-- A waiting copy finds a value. -/
theorem Ordering.look_source (h : Ordering cs bound fr₀ o fr)
    (ha : Askable cs bound fr₀) (hc : c ∈ o.waiting) :
    ∃ x, look fr c.source = some x := by
  obtain ⟨c₀, hc₀, -, hlook⟩ := h.asked c hc
  rw [hlook]
  exact Option.isSome_iff_exists.mp (ha.defined c₀ hc₀)

/-- What is ready after a copy was done is what has no readers then. -/
theorem Booked.ready_emit (h : Booked bound o) {ready : List Copy}
    (hr : o.ready = c :: ready) :
    (o.emit c ready).ready.Nodup ∧ ∀ p, p ∈ (o.emit c ready).ready
      ↔ p ∈ o.waiting.filter (·.dest ≠ c.dest)
        ∧ readCount (o.waiting.filter (·.dest ≠ c.dest)) p.dest = 0 := by
  have hnd : (c :: ready).Nodup := hr ▸ h.readyNodup
  have hready (p : Copy) : p ∈ c :: ready ↔ p ∈ o.waiting
      ∧ readCount o.waiting p.dest = 0 :=
    hr ▸ h.ready p
  obtain ⟨hc, hc0⟩ := (hready c).mp List.mem_cons_self
  have hcount := readCount_filter h.distinct hc
  -- the copies that were ready are those that stay ready
  have hstay (p : Copy) (hp : c.source ≠ .value p.dest) : p ∈ ready
      ↔ p ∈ o.waiting.filter (·.dest ≠ c.dest)
        ∧ readCount (o.waiting.filter (·.dest ≠ c.dest)) p.dest = 0 := by
    have hsame := hcount p.dest
    rw [if_neg hp, Nat.add_zero] at hsame
    rw [← hsame, List.mem_filter, decide_eq_true_eq]
    constructor
    · intro hm
      obtain ⟨hw, h0⟩ := (hready p).mp (List.mem_cons_of_mem _ hm)
      refine ⟨⟨hw, fun hd => ?_⟩, h0⟩
      rw [eq_of_dest_eq h.distinct hw hc hd] at hm
      exact (List.nodup_cons.mp hnd).1 hm
    · intro hm
      obtain ⟨⟨hw, hd⟩, h0⟩ := hm
      rcases List.mem_cons.mp ((hready p).mpr ⟨hw, h0⟩) with rfl | hm
      · exact absurd rfl hd
      · exact hm
  -- the destination that the copy read was not ready
  have hread (p : Copy) (hp : c.source = .value p.dest) : p ∉ ready := by
    intro hm
    obtain ⟨-, h0⟩ := (hready p).mp (List.mem_cons_of_mem _ hm)
    exact readCount_eq_zero.mp h0 c hc hp
  -- the destination it read has one reader less, and is ready if that was the
  -- last one
  have hnew (p : Copy) (hp : c.source = .value p.dest) (hw : p ∈ o.waiting) :
      o.readersOf p.dest - 1 = 0
        ↔ readCount (o.waiting.filter (·.dest ≠ c.dest)) p.dest = 0 := by
    have hone := hcount p.dest
    rw [if_pos hp] at hone
    rw [h.readers p hw, hone]
    omega
  rw [Sequencing.ready_emit]
  -- only a copy that reads a value can make another one ready
  cases hs : c.source.id? with
  -- no copy waits to overwrite what was read
  | none =>
      refine ⟨(List.nodup_cons.mp hnd).2, fun p => hstay p fun hp => ?_⟩
      rw [hp] at hs
      cases hs
  | some v =>
      have hsv : c.source = .value v := by
        cases hsrc : c.source <;> rw [hsrc] at hs <;> cases hs
        rfl
      rw [Option.bind_some]
      cases hfind : (o.waiting.filter (·.dest ≠ c.dest)).find? (·.dest = v) with
      | none =>
          refine ⟨(List.nodup_cons.mp hnd).2, fun p => ?_⟩
          by_cases hp : c.source = .value p.dest
          · have hno : p ∉ o.waiting.filter (·.dest ≠ c.dest) := by
              intro hm
              have := List.find?_eq_none.mp hfind p hm
              rw [hsv] at hp
              injection hp with hp
              simp [hp] at this
            exact ⟨fun hm => absurd hm (hread p hp), fun hm => absurd hm.1 hno⟩
          · exact hstay p hp
      -- one does; it is made ready just if nobody else reads its destination
      | some q =>
          have hq : q ∈ o.waiting.filter (·.dest ≠ c.dest) :=
            List.mem_of_find?_eq_some hfind
          have hqw : q ∈ o.waiting := (List.mem_filter.mp hq).1
          have hqd : q.dest = v := by simpa using List.find?_some hfind
          have hqs : c.source = .value q.dest := by rw [hsv, hqd]
          have honly (p : Copy) (hp : c.source = .value p.dest)
              (hpm : p ∈ o.waiting.filter (·.dest ≠ c.dest)) : p = q := by
            rw [hqs] at hp
            injection hp with hp
            exact eq_of_dest_eq h.distinct
              (List.mem_filter.mp hpm).1 hqw hp.symm
          dsimp only
          split
          · next hzero =>
            refine ⟨nodup_insertByTurn (hread q hqs) (List.nodup_cons.mp hnd).2,
              fun p => ?_⟩
            rw [mem_insertByTurn]
            by_cases hp : c.source = .value p.dest
            · constructor
              · intro hm
                rcases hm with rfl | hm
                · exact ⟨hq, (hnew p hqs hqw).mp hzero⟩
                · exact absurd hm (hread p hp)
              · intro hm
                exact Or.inl (honly p hp hm.1)
            · rw [hstay p hp, or_iff_right]
              rintro rfl
              exact hp hqs
          · next hzero =>
            refine ⟨(List.nodup_cons.mp hnd).2, fun p => ?_⟩
            by_cases hp : c.source = .value p.dest
            · refine ⟨fun hm => absurd hm (hread p hp), fun hm => ?_⟩
              obtain rfl := honly p hp hm.1
              exact absurd ((hnew p hqs hqw).mpr hm.2) hzero
            · exact hstay p hp

/-- Doing a ready copy keeps the books right. -/
theorem Booked.emit (h : Booked bound o) {ready : List Copy}
    (hr : o.ready = c :: ready) : Booked bound (o.emit c ready) := by
  have hc : c ∈ o.waiting := ((h.ready c).mp (hr ▸ List.mem_cons_self)).1
  have hready := h.ready_emit hr
  have hreaders (v : ValueId) : (o.emit c ready).readersOf v = _ :=
    Sequencing.readersOf_emit v
  have hcount := readCount_filter h.distinct hc
  rw [Sequencing.emit_eq] at hready hreaders ⊢
  refine ⟨h.distinct.sublist (List.filter_sublist.map _),
    fun d hd => ?_, fun d hd => ?_,
    hready.2, hready.1, h.fresh, fun d hd v hv => ?_⟩
  · exact h.low d (List.mem_filter.mp hd).1
  · obtain ⟨hdw, -⟩ := List.mem_filter.mp hd
    rw [hreaders, h.readers d hdw, hcount d.dest]
    split <;> push_cast <;> omega
  · exact h.below d (List.mem_filter.mp hd).1 v hv

/-- Doing a ready copy leaves the others what they are to assign. -/
theorem Ordering.emit (h : Ordering cs bound fr₀ o fr)
    (ha : Askable cs bound fr₀) {ready : List Copy}
    (hr : o.ready = c :: ready) :
    ∃ fr', Ordering cs bound fr₀ (o.emit c ready) fr' := by
  obtain ⟨hc, hc0⟩ := (h.ready c).mp (hr ▸ List.mem_cons_self)
  have hunread := readCount_eq_zero.mp hc0
  obtain ⟨x, hx⟩ := h.look_source ha hc
  obtain ⟨c₁, hc₁, hdest₁, hlook₁⟩ := h.asked c hc
  have hbooked := h.toBooked.emit hr
  rw [Sequencing.emit_eq] at hbooked ⊢
  refine ⟨fr.insert c.dest x, ⟨hbooked, ?_, ?_, ?_, ?_⟩⟩
  · show assignAll fr₀ (o.done ++ [c]) = _
    rw [assignAll_append, h.done, Option.bind_some, assignAll, hx]
    rfl
  · intro d hd
    obtain ⟨hdw, -⟩ := List.mem_filter.mp hd
    obtain ⟨c₀, hc₀, hdest, hlook⟩ := h.asked d hdw
    exact ⟨c₀, hc₀, hdest, by rw [look_insert_of_ne (hunread d hdw), hlook]⟩
  · intro c₀ hc₀ hnone
    rw [getElem?_insert_frame]
    split
    · next heq =>
      have : c₀ = c₁ := eq_of_dest_eq ha.distinct hc₀ hc₁ (by rw [hdest₁, heq])
      rw [this, ← hlook₁, hx]
    · next hne =>
      refine h.served c₀ hc₀ fun d hd heq => ?_
      exact hnone d
        (List.mem_filter.mpr
        ⟨hd, by simpa using fun h' => hne (by rw [← heq, h'])⟩) heq
  · intro v hv hnone
    rw [getElem?_insert_frame,
      if_neg fun heq => hnone c₁ hc₁ (by rw [hdest₁, heq])]
    exact h.kept v hv hnone

-- ========================================================= breaking a cycle

/-- A counter below its bound counts on. -/
theorem toInt_succ {n : Int64} (h : n.toInt + 1 < 2 ^ 63) :
    (n + 1).toInt = n.toInt + 1 := by
  have hlow := n.le_toInt
  rw [Int64.toInt_add, show (1 : Int64).toInt = 1 from rfl,
    Int.bmod_eq_of_le (by omega) (by omega)]

/-- The copy as it reads on, after its source was saved. -/
def followSaved (saved dest : ValueId) (p : Copy) : Copy :=
  if p.source = .value dest then { p with source := .value saved } else p

-- A copy that follows the value saved takes it for the one overwritten, and
-- goes where it went.
@[simp] theorem dest_followSaved (saved dest : ValueId) (p : Copy) :
    (followSaved saved dest p).dest = p.dest := by
  unfold followSaved
  split <;> rfl

theorem source_followSaved (saved dest : ValueId) (p : Copy) :
    (followSaved saved dest p).source
      = if p.source = .value dest then .value saved else p.source := by
  unfold followSaved
  split <;> rfl

/-- The reads after a destination was saved in a fresh value. -/
theorem readCount_followSaved {saved dest v : ValueId} {ws : List Copy}
    (hs : saved ≠ v) :
    readCount (ws.map (followSaved saved dest)) v = if v
        = dest then 0 else readCount ws v := by
  split
  · next hv =>
    subst hv
    refine readCount_eq_zero.mpr fun p hp => ?_
    obtain ⟨q, -, rfl⟩ := List.mem_map.mp hp
    rw [source_followSaved]
    split
    · simpa using hs
    · next hne => exact hne
  · next hv =>
    rw [readCount, List.countP_map]
    refine List.countP_congr fun p _ => ?_
    simp only [Function.comp_apply, source_followSaved, decide_eq_true_eq]
    split
    · next heq => simp [heq, hs, Ne.symm hv]
    · rfl

/-- What waits after a cycle was broken. -/
theorem waiting_breakCycle :
    (o.breakCycle c).waiting = o.waiting.map
    (followSaved o.func.nextValue c.dest) := rfl

namespace Booked

/-- When nothing is ready, every waiting destination is read by a copy that
waits. -/
theorem exists_reader (h : Booked bound o) (hr : o.ready = []) {p : Copy}
    (hp : p ∈ o.waiting) : ∃ q ∈ o.waiting, q.source = .value p.dest := by
  by_contra hnone
  have h0 : readCount o.waiting p.dest = 0 :=
    readCount_eq_zero.mpr fun q hq heq => hnone ⟨q, hq, heq⟩
  have := (h.ready p).mpr ⟨hp, h0⟩
  rw [hr] at this
  cases this

/-- The next fresh value is none of those below the bound. -/
theorem next_ne (h : Booked bound o) {v : ValueId} (hv : v.toInt < bound) :
    o.func.nextValue ≠ v := by
  rintro rfl
  have := h.fresh
  omega

/-- Breaking a cycle keeps the books right. -/
theorem breakCycle (h : Booked bound o) (hr : o.ready = []) (hc : c ∈ o.waiting)
    (hroom : o.func.nextValue.toInt + 1 < 2 ^ 63) :
    Booked bound (o.breakCycle c) := by
  obtain ⟨saved, hsaved⟩ : ∃ saved, saved = o.func.nextValue := ⟨_, rfl⟩
  have hne (v : ValueId) (hv : v.toInt < bound) : saved ≠ v :=
    hsaved ▸ h.next_ne hv
  have hwaiting : (o.breakCycle c).waiting
      = o.waiting.map (followSaved saved c.dest) := by
    rw [hsaved, waiting_breakCycle]
  have hready : (o.breakCycle c).ready = [followSaved saved c.dest c] := by
    rw [hsaved]
    rfl
  have hnext : (o.breakCycle c).func.nextValue = saved + 1 := by
    rw [hsaved]
    rfl
  have hreaders (v : ValueId) : (o.breakCycle c).readersOf v
      = if c.dest = v then 0 else o.readersOf v := by
    show (o.readers.insert c.dest 0).getD v 0 = _
    rw [Std.ExtTreeMap.getD_insert]
    by_cases hv : c.dest = v
    · simp [hv]
    · simp [hv, Sequencing.readersOf]
  -- the clauses of the bookkeeping one by one; readers of the saved destination
  -- have moved to the new value, so it has none left
  refine ⟨?_, ?_, ?_, ?_, ?_, ?_, ?_⟩
  · rw [hwaiting, List.map_map]
    have hdest : (fun p : Copy => p.dest) ∘ followSaved saved c.dest
        = fun p => p.dest :=
      funext fun p => dest_followSaved _ _ p
    rw [hdest]
    exact h.distinct
  -- the copy that was saved is the only one that became ready: every other one
  -- still has the reader it had
  · intro d hd
    rw [hwaiting] at hd
    obtain ⟨p, hp, rfl⟩ := List.mem_map.mp hd
    rw [dest_followSaved]
    exact h.low p hp
  · intro d hd
    rw [hwaiting] at hd
    obtain ⟨p, hp, rfl⟩ := List.mem_map.mp hd
    rw [dest_followSaved, hreaders, hwaiting,
      readCount_followSaved (hne _ (h.low p hp)), h.readers p hp]
    by_cases heq : c.dest = p.dest
    · simp [heq]
    · simp [heq, Ne.symm heq]
  · intro d
    rw [hready, hwaiting, List.mem_singleton]
    constructor
    · intro hd
      subst hd
      refine ⟨List.mem_map_of_mem hc, ?_⟩
      rw [dest_followSaved, readCount_followSaved (hne _ (h.low c hc)),
        if_pos rfl]
    · intro hd
      obtain ⟨hmem, h0⟩ := hd
      obtain ⟨p, hp, rfl⟩ := List.mem_map.mp hmem
      rw [dest_followSaved, readCount_followSaved (hne _ (h.low p hp))] at h0
      by_cases heq : p.dest = c.dest
      · rw [eq_of_dest_eq h.distinct hp hc heq]
      · rw [if_neg heq] at h0
        obtain ⟨q, hq, hqs⟩ := h.exists_reader hr hp
        exact absurd hqs (readCount_eq_zero.mp h0 q hq)
  · rw [hready]
    exact List.nodup_singleton _
  · rw [hnext, hsaved, toInt_succ hroom]
    exact (h.fresh).trans (by omega)
  · intro d hd v hv
    rw [hwaiting] at hd
    obtain ⟨p, hp, rfl⟩ := List.mem_map.mp hd
    rw [source_followSaved] at hv
    rw [hnext, hsaved, toInt_succ hroom]
    split at hv
    · injection hv with hv
      rw [← hv, hsaved]
      omega
    · have := h.below p hp v hv
      omega

end Booked

/-- Breaking a cycle leaves the copies what they are to assign. -/
theorem Ordering.breakCycle (h : Ordering cs bound fr₀ o fr)
    (ha : Askable cs bound fr₀) (hr : o.ready = []) (hc : c ∈ o.waiting)
    (hroom : o.func.nextValue.toInt + 1 < 2 ^ 63) :
    ∃ fr', Ordering cs bound fr₀ (o.breakCycle c) fr' := by
  -- a reader of the destination, whose value is to be saved
  obtain ⟨q, hq, hqs⟩ := h.exists_reader hr hc
  obtain ⟨x, hx⟩ := h.look_source ha hq
  rw [hqs] at hx
  have hsource (d : Copy) (hd : d ∈ o.waiting) :
      d.source ≠ .value o.func.nextValue := by
    intro heq
    have := h.below d hd _ heq
    omega
  refine ⟨fr.insert o.func.nextValue x,
    ⟨h.toBooked.breakCycle hr hc hroom, ?_, ?_, ?_, ?_⟩⟩
  · show assignAll fr₀ (o.done
      ++ [⟨0, o.func.nextValue, .value c.dest, c.type⟩]) = _
    rw [assignAll_append, h.done, Option.bind_some, assignAll, hx]
    rfl
  · intro d hd
    rw [waiting_breakCycle] at hd
    obtain ⟨p, hp, rfl⟩ := List.mem_map.mp hd
    obtain ⟨c₀, hc₀, hdest, hlook⟩ := h.asked p hp
    refine ⟨c₀, hc₀, by rw [dest_followSaved, hdest], ?_⟩
    rw [source_followSaved]
    split
    · next heq => rw [look_insert_self, ← hx, ← hlook, heq]
    · rw [look_insert_of_ne (hsource p hp), hlook]
  · intro c₀ hc₀ hnone
    rw [getElem?_insert_frame, if_neg (h.next_ne (ha.low c₀ hc₀))]
    refine h.served c₀ hc₀ fun p hp heq => ?_
    refine hnone (followSaved o.func.nextValue c.dest p) ?_
      (by rw [dest_followSaved, heq])
    rw [waiting_breakCycle]
    exact List.mem_map_of_mem hp
  · intro v hv hnone
    rw [getElem?_insert_frame, if_neg (h.next_ne hv)]
    exact h.kept v hv hnone

-- ================================================================ all of it

/-- Assignments that give each destination of the copies what its source held at
the start, and leave everything else below the bound. -/
def Performs (cs : List Copy) (bound : Int) (out : List Copy) : Prop :=
  ∀ fr₀, Askable cs bound fr₀ → ∃ fr, assignAll fr₀ out = some fr
    ∧ (∀ c ∈ cs, fr[c.dest]? = look fr₀ c.source)
    ∧ ∀ v : ValueId, v.toInt < bound → (∀ c ∈ cs, c.dest ≠ v) → fr[v]? = fr₀[v]?

/-- How many steps are needed at most: two for each waiting copy, of which
breaking a cycle is the first. -/
def stepsLeft (o : Sequencing) : Nat :=
  2 * o.waiting.length - if o.ready = [] then 0 else 1

/-- Each copy emitted is one less to wait for. -/
theorem length_emit (h : Booked bound o) {ready : List Copy}
    (hr : o.ready = c :: ready) :
    (o.emit c ready).waiting.length + 1 = o.waiting.length := by
  have hc : c ∈ o.waiting := ((h.ready c).mp (hr ▸ List.mem_cons_self)).1
  rw [Sequencing.emit_eq, (perm_cons_filter h.distinct hc).length_eq,
    List.length_cons]

/-- With enough steps, nothing is left waiting. -/
theorem Ordering.run (h : Ordering cs bound fr₀ o fr)
    (ha : Askable cs bound fr₀) {fuel : Nat} (hfuel : stepsLeft o ≤ fuel)
    (hroom : o.func.nextValue.toInt + fuel < 2 ^ 63) :
    ∃ fr', assignAll fr₀ (o.run fuel).1 = some fr'
      ∧ (∀ c ∈ cs, fr'[c.dest]? = look fr₀ c.source)
      ∧ ∀ v : ValueId, v.toInt < bound → (∀ c ∈ cs, c.dest ≠ v) →
      fr'[v]? = fr₀[v]? := by
  induction fuel generalizing o fr with
  | zero =>
      have hw : o.waiting = [] := by
        rw [← List.length_eq_zero_iff]
        unfold stepsLeft at hfuel
        split at hfuel <;> omega
      exact ⟨fr, h.done, fun c hc => h.served c hc (by simp [hw]), h.kept⟩
  | succ fuel ih =>
      unfold Sequencing.run
      cases hr : o.ready with
      | cons c ready =>
          obtain ⟨fr', h'⟩ := h.emit ha hr
          have hlen := length_emit h.toBooked hr
          refine ih h' ?_ ?_
          · unfold stepsLeft at hfuel ⊢
            rw [if_neg (by simp [hr])] at hfuel
            omega
          · rw [Sequencing.emit_eq]
            push_cast at hroom
            show o.func.nextValue.toInt + fuel < 2 ^ 63
            omega
      | nil =>
          have hfirst := first?_spec o.waiting
          cases hc : Copy.first? o.waiting with
          | none =>
              rw [hc] at hfirst
              exact ⟨fr, h.done, fun c hc => h.served c hc (by simp [hfirst]),
                h.kept⟩
          | some c =>
              rw [hc] at hfirst
              push_cast at hroom
              have hone : o.func.nextValue.toInt + 1 < 2 ^ 63 := by omega
              obtain ⟨fr', h'⟩ := h.breakCycle ha hr hfirst hone
              refine ih h' ?_ ?_
              · have hpos := List.length_pos_of_mem hfirst
                unfold stepsLeft at hfuel ⊢
                rw [if_pos hr] at hfuel
                rw [if_neg (by simp [Sequencing.breakCycle])]
                simp only [Sequencing.breakCycle, List.length_map]
                omega
              · show (o.func.nextValue + 1).toInt + fuel < 2 ^ 63
                rw [toInt_succ hone]
                omega

/-- With distinct destinations, only idle copies are left out. -/
theorem effective_eq_filter {cs : List Copy} (h : (cs.map (·.dest)).Nodup) :
    Sequencing.effective cs = cs.filter (!·.isIdle) := by
  have hloop (ws : List Copy) (hdis : ∀ w ∈ ws, ∀ c ∈ cs, w.dest ≠ c.dest) :
      cs.foldl (fun w c => if c.isIdle then w
        else w.filter (·.dest ≠ c.dest) ++ [c]) ws
        = ws ++ cs.filter (!·.isIdle) := by
    induction cs generalizing ws with
    | nil => simp
    | cons c cs ih =>
        obtain ⟨hc, hcs⟩ := List.nodup_cons.mp h
        rw [List.foldl_cons, List.filter_cons]
        cases hidle : c.isIdle with
        | true =>
            simp only [if_true, Bool.not_true]
            exact ih hcs ws fun w hw d hd =>
              hdis w hw d (List.mem_cons_of_mem _ hd)
        | false =>
            have hkeep : ws.filter (·.dest ≠ c.dest) = ws :=
              List.filter_eq_self.mpr fun w hw => by
                simpa using hdis w hw c List.mem_cons_self
            simp only [if_neg Bool.false_ne_true,
              Bool.not_false, if_true, hkeep]
            rw [ih hcs (ws ++ [c])]
            · simp
            · intro w hw d hd
              rcases List.mem_append.mp hw with hw | hw
              · exact hdis w hw d (List.mem_cons_of_mem _ hd)
              · rw [List.mem_singleton] at hw
                subst hw
                exact fun heq => hc (List.mem_map.mpr ⟨d, hd, heq.symm⟩)
  exact (hloop [] (by simp)).trans (List.nil_append _)

/-- At the start the books are right. -/
theorem booked_start {f : Func} (hdistinct : (cs.map (·.dest)).Nodup)
    (hlow : ∀ c ∈ cs, c.dest.toInt < bound) (hb : bound ≤ f.nextValue.toInt)
    (hs : ∀ c ∈ cs, ∀ v, c.source = .value v → v.toInt < f.nextValue.toInt) :
    Booked bound (Sequencing.start f cs) := by
  have hsub : (Sequencing.effective cs).Sublist cs :=
    effective_eq_filter hdistinct ▸ List.filter_sublist
  have hdis : ((Sequencing.effective cs).map (·.dest)).Nodup :=
    hdistinct.sublist (hsub.map _)
  have hreaders := readersOf_start f cs
  have hfilter : ((Sequencing.effective cs).filter (fun c : Copy =>
      (Sequencing.countReaders (Sequencing.effective cs)).getD c.dest 0 = 0)
      ++ []).Nodup := by
    rw [List.append_nil]
    exact (List.Nodup.of_map _ hdis).filter _
  obtain ⟨hnd, hmem⟩ := insertAllByTurn_spec hfilter
  refine ⟨hdis, fun c hc => hlow c (hsub.subset hc),
    fun c _ => hreaders c.dest, fun c => ?_, hnd,
    hb, fun c hc => hs c (hsub.subset hc)⟩
  have hready : c ∈ (Sequencing.start f cs).ready ↔ _ := hmem c
  have hzero : (Sequencing.countReaders (Sequencing.effective cs)).getD c.dest 0
      = 0
      ↔ readCount (Sequencing.effective cs) c.dest = 0 := by
    rw [show (Sequencing.countReaders (Sequencing.effective cs)).getD c.dest 0
      = _ from
      hreaders c.dest]
    exact Int.natCast_eq_zero
  rw [hready, List.mem_filter, decide_eq_true_eq, hzero]
  simp [Sequencing.start]

/-- At the start nothing is done and every copy waits that is not idle. -/
theorem ordering_start {f : Func} (ha : Askable cs bound fr₀)
    (hb : bound ≤ f.nextValue.toInt)
    (hs : ∀ c ∈ cs, ∀ v, c.source = .value v → v.toInt < f.nextValue.toInt) :
    Ordering cs bound fr₀ (Sequencing.start f cs) fr₀ := by
  have heff := effective_eq_filter ha.distinct
  refine ⟨booked_start ha.distinct ha.low hb hs, rfl,
    fun c hc => ⟨c, ?_, rfl, rfl⟩, fun c₀ hc₀ hnone => ?_, fun _ _ _ => rfl⟩
  · have hc : c ∈ Sequencing.effective cs := hc
    rw [heff] at hc
    exact (List.mem_filter.mp hc).1
  · -- a copy that does not wait is idle
    have hidle : c₀.isIdle = true := by
      by_contra hidle
      refine hnone c₀ ?_ rfl
      show c₀ ∈ Sequencing.effective cs
      rw [heff]
      exact List.mem_filter.mpr ⟨hc₀, by simpa using hidle⟩
    rw [show c₀.source = .value c₀.dest by simpa [Copy.isIdle] using hidle]
    rfl

-- =================================================== repeated destinations

section Repeated

variable {d : Copy} {v : ValueId}

/-- Of the copies with one destination the last counts, unless it is idle. -/
theorem effective_concat (cs : List Copy) (d : Copy) :
    Sequencing.effective (cs ++ [d]) = if d.isIdle then Sequencing.effective cs
      else (Sequencing.effective cs).filter (·.dest ≠ d.dest) ++ [d] := by
  rw [Sequencing.effective, List.foldl_append]
  rfl

/-- The copy that counts for a destination: the last one that is not idle. -/
def counting (cs : List Copy) (v : ValueId) : Option Copy :=
  (cs.filter fun c => decide (c.dest = v) && !c.isIdle).getLast?

/-- The copy that counts for a value. -/
theorem counting_concat (cs : List Copy) (d : Copy) (v : ValueId) :
    counting (cs ++ [d]) v
      = if (decide (d.dest = v) && !d.isIdle)
      = true then some d else counting cs v := by
  rw [counting, List.filter_append, List.filter_singleton]
  split
  · next h => rw [h, cond_true, List.getLast?_concat]
  · next h =>
    rw [Bool.eq_false_iff.mpr h, cond_false, List.append_nil]
    rfl

/-- Of the copies for a destination the one that counts is left. -/
theorem mem_effective : c ∈ Sequencing.effective cs
    ↔ counting cs c.dest = some c := by
  induction cs using List.reverseRecOn with
  | nil => simp [Sequencing.effective, counting]
  | append_singleton cs d ih =>
      rw [effective_concat, counting_concat]
      cases hidle : d.isIdle with
      | true => simpa using ih
      | false =>
          simp only [Bool.false_eq_true, if_false, List.mem_append,
            List.mem_filter, ih,
            List.mem_singleton, decide_eq_true_eq,
              Bool.not_false, Bool.and_true]
          by_cases hd : d.dest = c.dest
          · rw [if_pos hd, Option.some.injEq, hd]
            simp [eq_comm]
          · rw [if_neg hd]
            constructor
            · rintro (⟨h, -⟩ | rfl)
              · exact h
              · exact absurd rfl hd
            · exact fun h => Or.inl ⟨h, fun heq => hd heq.symm⟩

/-- It is one of the copies, goes to that value and is not idle. -/
theorem of_counting (h : counting cs v = some c) :
    c ∈ cs ∧ c.dest = v ∧ c.isIdle = false := by
  obtain ⟨hc, hp⟩ := List.mem_filter.mp (List.mem_of_getLast? h)
  simpa [hc] using hp

/-- A copy in effect is one of those given, and not idle. -/
theorem mem_of_mem_effective (h : c ∈ Sequencing.effective cs) :
    c ∈ cs ∧ c.isIdle = false := by
  obtain ⟨hc, -, hidle⟩ := of_counting (mem_effective.mp h)
  exact ⟨hc, hidle⟩

/-- The copies that are left have distinct destinations. -/
theorem effective_nodup (cs : List Copy) :
    ((Sequencing.effective cs).map (·.dest)).Nodup := by
  induction cs using List.reverseRecOn with
  | nil => exact List.nodup_nil
  | append_singleton cs d ih =>
      rw [effective_concat]
      split
      · exact ih
      · rw [List.map_append, List.map_singleton]
        refine List.nodup_append.mpr ⟨ih.sublist (List.filter_sublist.map _),
          List.nodup_singleton _, ?_⟩
        intro a ha b hb hab
        obtain ⟨c, hc, rfl⟩ := List.mem_map.mp ha
        rw [List.mem_singleton.mp hb] at hab
        simpa [hab] using (List.mem_filter.mp hc).2

/-- There are no more of them than were given. -/
theorem length_effective_le (cs : List Copy) :
    (Sequencing.effective cs).length ≤ cs.length :=
  (List.subperm_of_subset (effective_nodup cs).of_map fun _ hc =>
  (mem_of_mem_effective hc).1).length_le

/-- All the copies in effect are in effect among themselves. -/
theorem effective_effective (cs : List Copy) :
    Sequencing.effective (Sequencing.effective cs)
        = Sequencing.effective cs := by
  rw [effective_eq_filter (effective_nodup cs), List.filter_eq_self]
  intro c hc
  rw [(mem_of_mem_effective hc).2]
  rfl

/-- What does the copies that count does the copies, where these can be done at
once. -/
theorem Performs.of_effective {out : List Copy}
    (h : Performs (Sequencing.effective cs) bound out) :
    Performs cs bound out := by
  intro fr₀ ha
  have heff := effective_eq_filter ha.distinct
  have hmem {c : Copy} : c ∈ Sequencing.effective cs
      ↔ c ∈ cs ∧ c.isIdle = false := by
    rw [heff, List.mem_filter, Bool.not_eq_true']
  obtain ⟨fr, hfr, hserved, hkept⟩ := h fr₀ ⟨effective_nodup cs,
    fun c hc => ha.low c (hmem.mp hc).1, fun c hc =>
    ha.defined c (hmem.mp hc).1⟩
  refine ⟨fr, hfr, fun c hc => ?_,
    fun v hv hnone => hkept v hv fun c hc => hnone c (hmem.mp hc).1⟩
  cases hidle : c.isIdle with
  | false => exact hserved c (hmem.mpr ⟨hc, hidle⟩)
  | true =>
      -- no other copy is for the destination of one that is idle
      have hsame : fr[c.dest]? = fr₀[c.dest]? := by
        refine hkept c.dest (ha.low c hc) fun d hd hdest => ?_
        obtain ⟨hd, hbusy⟩ := hmem.mp hd
        rw [eq_of_dest_eq ha.distinct hd hc hdest, hidle] at hbusy
        cases hbusy
      rw [hsame, show c.source
        = .value c.dest by simpa [Copy.isIdle] using hidle]
      rfl

end Repeated

/-- The assignments do one after the other what the copies that count do at
once. -/
theorem sequentialize_performs_effective {f : Func}
    (hb : bound ≤ f.nextValue.toInt)
    (hs : ∀ c ∈ cs, ∀ v, c.source = .value v → v.toInt < f.nextValue.toInt)
    (hroom : f.nextValue.toInt + (2 * cs.length + 1 : Nat) < 2 ^ 63) :
    Performs (Sequencing.effective cs) bound (sequentialize f cs).1 := by
  intro fr₀ ha
  have hstart : Sequencing.start f cs
      = Sequencing.start f (Sequencing.effective cs) := by
    rw [Sequencing.start, Sequencing.start, effective_effective]
  have hlow : ∀ c ∈ Sequencing.effective cs, ∀ v, c.source = .value v →
      v.toInt < f.nextValue.toInt :=
        fun c hc => hs c (mem_of_mem_effective hc).1
  rw [sequentialize, hstart]
  refine (ordering_start ha hb hlow).run ha ?_ hroom
  have hlen : (Sequencing.start f (Sequencing.effective cs)).waiting.length
      ≤ cs.length := by
    show (Sequencing.effective (Sequencing.effective cs)).length ≤ _
    rw [effective_effective]
    exact length_effective_le cs
  unfold stepsLeft
  omega

/-- The assignments do one after the other what the copies do at once. -/
theorem sequentialize_performs {f : Func} (hb : bound ≤ f.nextValue.toInt)
    (hs : ∀ c ∈ cs, ∀ v, c.source = .value v → v.toInt < f.nextValue.toInt)
    (hroom : f.nextValue.toInt + (2 * cs.length + 1 : Nat) < 2 ^ 63) :
    Performs cs bound (sequentialize f cs).1 :=
  (sequentialize_performs_effective hb hs hroom).of_effective

-- ============================================================ fresh values

/-- Fresh values are taken from the counter on, at most so many. -/
structure Draws (f g : Func) (n : Nat) : Prop where
  above : f.nextValue.toInt ≤ g.nextValue.toInt
  few : g.nextValue.toInt ≤ f.nextValue.toInt + n
  types : ∀ v : ValueId, v.toInt < f.nextValue.toInt → g.typeOf v = f.typeOf v

-- How many values are drawn is counted from above.
theorem Draws.refl (f : Func) (n : Nat) : Draws f f n :=
  ⟨le_refl _, by omega, fun _ _ => rfl⟩

theorem Draws.trans {f g h : Func} {n k : Nat} (hg : Draws f g n)
    (hh : Draws g h k) : Draws f h (n + k) := by
  refine ⟨hg.above.trans hh.above, ?_, fun v hv => ?_⟩
  · have := hg.few
    have := hh.few
    push_cast
    omega
  · rw [hh.types v (by have := hg.above; omega), hg.types v hv]

theorem Draws.mono {f g : Func} {n k : Nat} (h : Draws f g n)
    (hnk : n ≤ k) : Draws f g k :=
  ⟨h.above, by have := h.few; omega, h.types⟩

/-- A new value is one draw, as long as the counter does not come round. -/
theorem draws_newTyped {f : Func} (t : Ty)
    (h : f.nextValue.toInt + 1 < 2 ^ 63) : Draws f (f.newTyped t).2 1 := by
  have hnext : (f.newTyped t).2.nextValue.toInt = f.nextValue.toInt + 1 :=
    toInt_succ h
  refine ⟨by omega, by rw [hnext]; rfl, fun v hv => ?_⟩
  show (f.types.insert f.nextValue t).getD v .unknown = _
  rw [Std.ExtTreeMap.getD_insert, if_neg]
  · rfl
  · rw [Std.compare_eq_iff_eq]
    rintro rfl
    omega

/-- Each turn of the run draws at most one. -/
theorem run_draws {fuel : Nat} (h : o.func.nextValue.toInt + fuel < 2 ^ 63) :
    Draws o.func (o.run fuel).2 fuel := by
  induction fuel generalizing o with
  | zero => exact .refl _ _
  | succ fuel ih =>
      unfold Sequencing.run
      push_cast at h
      cases o.ready with
      | cons c ready =>
          dsimp only
          have hfunc : (o.emit c ready).func = o.func := by
            rw [Sequencing.emit_eq]
          have := ih (o := o.emit c ready) (by rw [hfunc]; omega)
          rw [hfunc] at this
          exact ⟨this.above, by have := this.few; push_cast; omega, this.types⟩
      | nil =>
          dsimp only
          cases Copy.first? o.waiting with
          | none => exact .refl _ _
          | some c =>
              have hone := draws_newTyped (f := o.func) c.type (by omega)
              have hrest := ih (o := o.breakCycle c) (by
                show (o.func.nextValue + 1).toInt + fuel < 2 ^ 63
                rw [toInt_succ (by omega)]
                omega)
              rw [Nat.add_comm]
              exact hone.trans hrest

/-- So sequentializing draws at most as many as its turns. -/
theorem sequentialize_draws {f : Func}
    (hroom : f.nextValue.toInt + (2 * cs.length + 1 : Nat) < 2 ^ 63) :
    Draws f (sequentialize f cs).2 (2 * cs.length + 1) :=
  run_draws (o := Sequencing.start f cs) hroom

end ParallelCopy

end MirBackend
