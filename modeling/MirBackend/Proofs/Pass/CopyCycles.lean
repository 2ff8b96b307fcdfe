/-
How many values a parallel copy saves, and that the order of its books does
not matter.

The copies say from which value each destination takes over (`Takes`). Since
destinations are distinct, this leads from a value to at most one other, and
values that are on a cycle come back to themselves. Two facts about the books
tie the saved values to the cycles:

- a copy on a cycle is read by the one before it, so as long as all of them wait
  none of them becomes ready (`Unwinding.emit`);
- when nothing is ready, every waiting destination is read, so going from a
  destination to its reader is a permutation of the waiting ones and each of
  them is on a cycle that waits as a whole (`Booked.cyclic`).

So a value is saved exactly once on each cycle (`Unwinding`, `OnePerCycle`).

The waiting copies are kept by destination and the ready ones in a queue by
turn; nothing else about their order is meant. `Turn` is one step when they lie
in any order, anew after every step. Turns are distinct, so there is one copy
that may be done next, and all orders lead to the same assignments
(`Shuffled.turn`).
-/
import Mathlib
import MirBackend.Proofs.Pass.ParallelCopy

namespace MirBackend.ParallelCopy

open Interp Relation

variable {cs : List Copy} {bound : Int} {o o' o₁ : Sequencing}
  {c : Copy} {u v w : ValueId}

-- ================================================================== cycles

/-- What `u` is to hold is in `v`. -/
def Takes (cs : List Copy) (u v : ValueId) : Prop :=
  ∃ c ∈ cs, c.dest = u ∧ c.source = .value v

/-- The value is on a cycle of at least two copies. -/
def OnCycle (cs : List Copy) (v : ValueId) : Prop :=
  ¬Takes cs v v ∧ TransGen (Takes cs) v v

/-- Each of the two values leads to the other. -/
def SameCycle (cs : List Copy) (u v : ValueId) : Prop :=
  ReflTransGen (Takes cs) u v ∧ ReflTransGen (Takes cs) v u

/-- The values are on cycles, one on each. -/
structure OnePerCycle (cs : List Copy) (vs : List ValueId) : Prop where
  onCycle : ∀ v ∈ vs, OnCycle cs v
  apart : vs.Pairwise fun u v => ¬SameCycle cs u v
  each : ∀ v, OnCycle cs v → ∃ u ∈ vs, SameCycle cs u v

/-- A destination takes over from one value only. -/
theorem Takes.unique (hdis : (cs.map (·.dest)).Nodup) (hv : Takes cs u v)
    (hw : Takes cs u w) : v = w := by
  obtain ⟨c, hc, hcu, hcv⟩ := hv
  obtain ⟨d, hd, hdu, hdw⟩ := hw
  rw [eq_of_dest_eq hdis hc hd (hcu.trans hdu.symm), hdw] at hcv
  exact (Operand.value.inj hcv).symm

namespace OnCycle

variable (hdis : (cs.map (·.dest)).Nodup) (h : OnCycle cs v)

include hdis h

/-- What a value on a cycle leads to leads back. -/
theorem returns (hw : ReflTransGen (Takes cs) v w) :
    ReflTransGen (Takes cs) w v := by
  induction hw with
  | refl => exact .refl
  | @tail w x _ hwx ih =>
      obtain rfl | ⟨y, hwy, hyv⟩ := ih.cases_head
      · obtain ⟨y, hwy, hyv⟩ := TransGen.head'_iff.mp h.2
        exact hwx.unique hdis hwy ▸ hyv
      · exact hwx.unique hdis hwy ▸ hyv

/-- A value that another one takes from, in however many steps, is on its cycle.
-/
theorem sameCycle (hw : ReflTransGen (Takes cs) v w) : SameCycle cs w v :=
  ⟨h.returns hdis hw, hw⟩

/-- What a value on a cycle leads to is taken over by something on the cycle. -/
theorem exists_taker (hw : ReflTransGen (Takes cs) v w) :
    ∃ y, ReflTransGen (Takes cs) v y ∧ Takes cs y w := by
  have hloop : TransGen (Takes cs) w w :=
    (TransGen.trans_right (h.returns hdis hw) h.2).trans_left hw
  obtain ⟨y, hwy, hyw⟩ := TransGen.tail'_iff.mp hloop
  exact ⟨y, hw.trans hwy, hyw⟩

/-- On a cycle no copy is idle. -/
theorem not_idle (hw : ReflTransGen (Takes cs) v w) : ¬Takes cs w w := by
  intro hww
  have hstay {x : ValueId} (hx : ReflTransGen (Takes cs) w x) : x = w := by
    induction hx with
    | refl => rfl
    | tail _ hyx ih =>
        subst ih
        exact hyx.unique hdis hww
  exact h.1 (hstay (h.returns hdis hw) ▸ hww)

end OnCycle

/-- A value on a cycle is a destination. -/
theorem OnCycle.low (hlow : ∀ c ∈ cs, c.dest.toInt < bound) (h : OnCycle cs v) :
    v.toInt < bound := by
  obtain ⟨y, ⟨c, hc, rfl, -⟩, -⟩ := TransGen.head'_iff.mp h.2
  exact hlow c hc

-- ========================================================== nothing is ready

/-- When nothing is ready, every waiting destination is on a cycle of waiting
copies. -/
theorem Booked.cyclic (h : Booked bound o) (hr : o.ready = [])
    (hc : c ∈ o.waiting) : TransGen (Takes o.waiting) c.dest c.dest := by
  -- each waiting destination has a reader, whose destination waits too
  have hread (d : { v // v ∈ o.waiting.map (·.dest) }) :
      ∃ e : { v // v ∈ o.waiting.map (·.dest) }, Takes o.waiting e d := by
    obtain ⟨p, hp, hpd⟩ := List.mem_map.mp d.2
    obtain ⟨q, hq, hqs⟩ := h.exists_reader hr hp
    exact ⟨⟨q.dest, List.mem_map_of_mem hq⟩, q, hq, rfl, by rw [hqs, hpd]⟩
  choose reader hreader using hread
  have hinj : Function.Injective reader := by
    intro d e hde
    exact Subtype.ext ((hreader d).unique h.distinct (hde ▸ hreader e))
  have hback (d : { v // v ∈ o.waiting.map (·.dest) }) (n : Nat) :
      TransGen (Takes o.waiting) (reader^[n + 1] d) d := by
    induction n with
    | zero => exact .single (hreader d)
    | succ n ih =>
        rw [Function.iterate_succ_apply']
        exact .head (hreader _) ih
  have hfin : Finite { v // v ∈ o.waiting.map (·.dest) } :=
    (List.finite_toSet (o.waiting.map fun d : Copy => d.dest)).to_subtype
  obtain ⟨n, hn, hperiod⟩ :=
    hinj.mem_periodicPts ⟨c.dest, List.mem_map_of_mem hc⟩
  obtain ⟨k, rfl⟩ : ∃ k, n = k + 1 := ⟨n - 1, by omega⟩
  have hloop := hback ⟨c.dest, List.mem_map_of_mem hc⟩ k
  rwa [hperiod.eq] at hloop

-- =============================================================== invariant

/-- The copies of a cycle all wait, as they were asked for. -/
def Whole (cs : List Copy) (o : Sequencing) (v : ValueId) : Prop :=
  ∀ w, ReflTransGen (Takes cs) v w → ∀ x, Takes cs w x → Takes o.waiting w x

/-- While the copies `cs` are put in order, `saved` are the values that were
saved, in fresh values from `bound` on: one on each cycle that does not wait as
a whole any more. -/
structure Unwinding (cs : List Copy) (bound : Int) (saved : List ValueId)
    (o : Sequencing) : Prop where
  origin : ∀ c ∈ o.waiting, ∃ c₀ ∈ cs, c₀.dest = c.dest ∧ c₀.isIdle = false
    ∧ (c.source = c₀.source ∨ ∃ t, c.source = .value t ∧ bound ≤ t.toInt)
  onCycle : ∀ v ∈ saved, OnCycle cs v
  apart : saved.Pairwise fun u v => ¬SameCycle cs u v
  unread : ∀ u ∈ saved, ∀ c ∈ o.waiting, c.source ≠ .value u
  cycle : ∀ v, OnCycle cs v → Whole cs o v ∨ ∃ u ∈ saved, SameCycle cs u v
  next : o.func.nextValue.toInt = bound + saved.length
  temps : (o.done.filter (bound ≤ ·.dest.toInt)).map
    (fun c => (c.dest.toInt, c.source))
    = saved.zipIdx.map fun (v, i) => (bound + i, .value v)
  dests : ((o.done.filter (·.dest.toInt < bound)
    ++ o.waiting).map (·.dest)).Perm
    ((cs.filter (!·.isIdle)).map (·.dest))

namespace Unwinding

variable {saved : List ValueId}

/-- At the start every cycle waits as a whole. -/
theorem start {f : Func} (hdis : (cs.map (·.dest)).Nodup)
    (hb : bound = f.nextValue.toInt) :
    Unwinding cs bound [] (Sequencing.start f cs) := by
  have heff := effective_eq_filter hdis
  have hwaiting : (Sequencing.start f cs).waiting = cs.filter (!·.isIdle) :=
    heff
  refine ⟨fun c hc => ?_, by simp, .nil, by simp,
    fun v hv => Or.inl fun w hw x hwx => ?_, ?_, rfl, ?_⟩
  · rw [hwaiting] at hc
    obtain ⟨hc, hidle⟩ := List.mem_filter.mp hc
    exact ⟨c, hc, rfl, by simpa using hidle, Or.inl rfl⟩
  · obtain ⟨d, hd, hdw, hdx⟩ := id hwx
    rw [hwaiting]
    refine ⟨d, List.mem_filter.mpr ⟨hd, ?_⟩, hdw, hdx⟩
    rw [Bool.not_eq_true', Copy.isIdle, beq_eq_false_iff_ne]
    intro hself
    exact hv.not_idle hdis hw ⟨d, hd, hdw, by rw [hself, hdw]⟩
  · rw [hb]
    exact (Int.add_zero _).symm
  · rw [hwaiting]
    exact List.Perm.refl _

/-- Doing a ready copy leaves whole what is whole. -/
theorem emit (h : Unwinding cs bound saved o) (hB : Booked bound o)
    (hdis : (cs.map (·.dest)).Nodup) {ready : List Copy}
    (hr : o.ready = c :: ready) :
    Unwinding cs bound saved (o.emit c ready) := by
  obtain ⟨hc, hc0⟩ := (hB.ready c).mp (hr ▸ List.mem_cons_self)
  have hunread := readCount_eq_zero.mp hc0
  have hlow := hB.low c hc
  rw [Sequencing.emit_eq]
  refine ⟨fun d hd => h.origin d (List.mem_filter.mp hd).1, h.onCycle, h.apart,
    fun u hu d hd => h.unread u hu d (List.mem_filter.mp hd).1,
    fun v hv => ?_, h.next, ?_, ?_⟩
  · refine (h.cycle v hv).imp_left fun hwhole w hw x hwx => ?_
    obtain ⟨d, hd, hdw, hdx⟩ := hwhole w hw x hwx
    refine ⟨d, List.mem_filter.mpr ⟨hd, decide_eq_true fun hdc => ?_⟩, hdw, hdx⟩
    -- were it the copy that is done, what takes over from its destination would
    -- wait
    obtain ⟨y, hy, hyw⟩ := hv.exists_taker hdis hw
    obtain ⟨e, he, -, hew⟩ := hwhole y hy w hyw
    exact hunread e he (by rw [hew, ← hdw, hdc])
  · show ((o.done ++ [c]).filter _).map _ = _
    rw [List.filter_append,
      List.filter_cons_of_neg (by simpa using hlow), List.filter_nil,
      List.append_nil]
    exact h.temps
  · refine List.Perm.trans ?_ h.dests
    show (((o.done ++ [c]).filter _ ++ o.waiting.filter _).map _).Perm _
    rw [List.filter_append,
      List.filter_cons_of_pos (by simpa using hlow), List.filter_nil,
      List.append_assoc, List.singleton_append]
    exact ((perm_cons_filter hB.distinct hc).symm.append_left _).map _

/-- When nothing is ready, the waiting copies are as they were asked for, and
read each other. -/
theorem takes_iff (h : Unwinding cs bound saved o) (hB : Booked bound o)
    (hdis : (cs.map (·.dest)).Nodup) (hr : o.ready = []) (hc : c ∈ o.waiting) :
    (Takes o.waiting c.dest v ↔ Takes cs c.dest v)
      ∧ (Takes o.waiting c.dest v → ∃ d ∈ o.waiting, d.dest = v) := by
  obtain ⟨y, hcy, hyc⟩ := TransGen.head'_iff.mp (hB.cyclic hr hc)
  have hwaits : ∃ d ∈ o.waiting, d.dest = y := by
    obtain rfl | ⟨z, ⟨d, hd, hdy, -⟩, -⟩ := hyc.cases_head
    · exact ⟨c, hc, rfl⟩
    · exact ⟨d, hd, hdy⟩
  have hasked : Takes cs c.dest y := by
    obtain ⟨d, hd, hdy⟩ := hwaits
    obtain ⟨e, he, hec, hey⟩ := id hcy
    obtain ⟨c₀, hc₀, hdest, -, hsource⟩ := h.origin e he
    rcases hsource with hsource | ⟨t, ht, hbound⟩
    · exact ⟨c₀, hc₀, hdest.trans hec, by rw [← hsource, hey]⟩
    · rw [hey, Operand.value.injEq] at ht
      have := hB.low d hd
      rw [hdy, ht] at this
      omega
  refine ⟨⟨fun hv => ?_, fun hv => ?_⟩, fun hv => ?_⟩
  · exact hcy.unique hB.distinct hv ▸ hasked
  · exact hasked.unique hdis hv ▸ hcy
  · exact hcy.unique hB.distinct hv ▸ hwaits

/-- When nothing is ready, what a waiting destination leads to waits as it was
asked for. -/
theorem whole (h : Unwinding cs bound saved o) (hB : Booked bound o)
    (hdis : (cs.map (·.dest)).Nodup) (hr : o.ready = []) (hc : c ∈ o.waiting) :
    Whole cs o c.dest := by
  have hwaits (w : ValueId) (hw : ReflTransGen (Takes cs) c.dest w) :
      ∃ d ∈ o.waiting, d.dest = w := by
    induction hw with
    | refl => exact ⟨c, hc, rfl⟩
    | @tail y z hy hyz ih =>
        obtain ⟨d, hd, rfl⟩ := ih
        obtain ⟨hiff, hleads⟩ := h.takes_iff hB hdis hr hd (v := z)
        exact hleads (hiff.mpr hyz)
  intro w hw x hwx
  obtain ⟨d, hd, rfl⟩ := hwaits w hw
  exact (h.takes_iff hB hdis hr hd).1.mpr hwx

/-- When nothing is ready, a waiting destination is on a cycle. -/
theorem onCycle_dest (h : Unwinding cs bound saved o) (hB : Booked bound o)
    (hdis : (cs.map (·.dest)).Nodup) (hr : o.ready = []) (hc : c ∈ o.waiting) :
    OnCycle cs c.dest := by
  constructor
  · rintro ⟨d, hd, hdest, hsource⟩
    obtain ⟨c₀, hc₀, hdest₀, hidle, -⟩ := h.origin c hc
    rw [eq_of_dest_eq hdis hd hc₀ (hdest.trans hdest₀.symm)] at hsource
    simp [Copy.isIdle, hsource, hdest₀] at hidle
  · refine TransGen.mono (fun u v huv => ?_) _ _ (hB.cyclic hr hc)
    obtain ⟨d, hd, rfl, -⟩ := id huv
    exact (h.takes_iff hB hdis hr hd).1.mp huv

/-- Breaking a cycle saves the first value on it. -/
theorem breakCycle (h : Unwinding cs bound saved o) (hB : Booked bound o)
    (hdis : (cs.map (·.dest)).Nodup) (hlow : ∀ c ∈ cs, c.dest.toInt < bound)
    (hr : o.ready = []) (hc : c ∈ o.waiting)
    (hroom : o.func.nextValue.toInt + 1 < 2 ^ 63) :
    Unwinding cs bound (saved ++ [c.dest]) (o.breakCycle c) := by
  have hcycle := h.onCycle_dest hB hdis hr hc
  have hwhole := h.whole hB hdis hr hc
  have hnew : ∀ u ∈ saved, ¬SameCycle cs u c.dest := by
    rintro u hu ⟨-, hcu⟩
    obtain ⟨y, hy, hyu⟩ := hcycle.exists_taker hdis hcu
    obtain ⟨d, hd, -, hdu⟩ := hwhole y hy u hyu
    exact h.unread u hu d hd hdu
  have hwaiting := waiting_breakCycle (o := o) (c := c)
  have hsame (d : Copy) (hd : d ∈ o.waiting) (hne : d.source ≠ .value c.dest) :
      d ∈ (o.breakCycle c).waiting := by
    rw [hwaiting]
    refine List.mem_map.mpr ⟨d, hd, ?_⟩
    rw [followSaved, if_neg hne]
  refine ⟨fun d hd => ?_, fun u hu => ?_, ?_, fun u hu d hd => ?_,
    fun v hv => ?_, ?_, ?_, ?_⟩
  · rw [hwaiting] at hd
    obtain ⟨p, hp, rfl⟩ := List.mem_map.mp hd
    obtain ⟨c₀, hc₀, hdest, hidle, hsource⟩ := h.origin p hp
    refine ⟨c₀, hc₀, by rw [dest_followSaved, hdest], hidle, ?_⟩
    rw [source_followSaved]
    split
    · exact Or.inr ⟨_, rfl, hB.fresh⟩
    · exact hsource
  · rcases List.mem_append.mp hu with hu | hu
    · exact h.onCycle u hu
    · exact List.mem_singleton.mp hu ▸ hcycle
  · refine List.pairwise_append.mpr ⟨h.apart, List.pairwise_singleton _ _,
      fun u hu v hv => ?_⟩
    exact List.mem_singleton.mp hv ▸ hnew u hu
  · rw [hwaiting] at hd
    obtain ⟨p, hp, rfl⟩ := List.mem_map.mp hd
    rw [source_followSaved]
    split
    · -- the saved values are destinations, and so below the fresh ones
      have hbelow : u.toInt < bound := by
        rcases List.mem_append.mp hu with hu | hu
        · exact (h.onCycle u hu).low hlow
        · exact List.mem_singleton.mp hu ▸ hB.low c hc
      rw [ne_eq, Operand.value.injEq]
      exact hB.next_ne hbelow
    · next hne =>
      rcases List.mem_append.mp hu with hu | hu
      · exact h.unread u hu p hp
      · exact List.mem_singleton.mp hu ▸ hne
  · rcases h.cycle v hv with hv' | ⟨u, hu, huv⟩
    · by_cases hcv : SameCycle cs c.dest v
      · exact Or.inr ⟨c.dest, List.mem_append_right _ List.mem_cons_self, hcv⟩
      · refine Or.inl fun w hw x hwx => ?_
        obtain ⟨d, hd, hdw, hdx⟩ := hv' w hw x hwx
        refine ⟨d, hsame d hd fun hdc => ?_, hdw, hdx⟩
        rw [hdc, Operand.value.injEq] at hdx
        exact hcv (hdx ▸ hv.sameCycle hdis (hw.tail hwx))
    · exact Or.inr ⟨u, List.mem_append_left _ hu, huv⟩
  · show (o.func.nextValue + 1).toInt = _
    rw [toInt_succ hroom, h.next, List.length_append, List.length_singleton]
    push_cast
    ring
  · show ((o.done
      ++ [(⟨0, o.func.nextValue, .value c.dest, c.type⟩ : Copy)]).filter _).map
      _ = _
    rw [List.filter_append,
      List.filter_cons_of_pos (by simpa using hB.fresh), List.filter_nil,
      List.map_append, h.temps, List.zipIdx_append, List.map_append]
    simp [h.next]
  · refine List.Perm.trans (List.Perm.of_eq ?_) h.dests
    show ((o.done
      ++ [(⟨0, o.func.nextValue, .value c.dest, c.type⟩ : Copy)]).filter _
      ++ (o.breakCycle c).waiting).map _ = _
    rw [List.filter_append,
      List.filter_cons_of_neg (by simpa using hB.fresh), List.filter_nil,
      List.append_nil, List.map_append, List.map_append, hwaiting, List.map_map]
    congr 1
    exact List.map_congr_left fun p _ => dest_followSaved _ _ p

/-- At the end a value was saved on every cycle. -/
theorem onePerCycle (h : Unwinding cs bound saved o) (hend : o.waiting = []) :
    OnePerCycle cs saved := by
  refine ⟨h.onCycle, h.apart,
    fun v hv => (h.cycle v hv).resolve_left fun hwhole => ?_⟩
  obtain ⟨y, hvy, -⟩ := TransGen.head'_iff.mp hv.2
  obtain ⟨d, hd, -⟩ := hwhole v .refl y hvy
  rw [hend] at hd
  cases hd

end Unwinding

-- ================================================================ the loop

namespace Sequencing

/-- The next state of the loop: a ready copy is done, and where none is ready a
cycle is broken. -/
def next? (o : Sequencing) : Option Sequencing :=
  match o.ready with
  | c :: ready => some (o.emit c ready)
  | [] => (Copy.first? o.waiting).map o.breakCycle

/-- One more turn of the run is its next step, if there is one. -/
theorem run_succ (o : Sequencing) (k : Nat) :
    o.run (k + 1) = match o.next? with
      | some o' => o'.run k
      | none => (o.done, o.func) := by
  rw [run, next?]
  cases o.ready with
  | cons c ready => rfl
  | nil => cases Copy.first? o.waiting <;> rfl

/-- So many rounds of the loop lead from one state to another. -/
inductive Steps : Nat → Sequencing → Sequencing → Prop where
  | none (o : Sequencing) : Steps 0 o o
  | next {n : Nat} {o o₁ o' : Sequencing} (before : Steps n o o₁)
      (step : o₁.next? = some o') :
      Steps (n + 1) o o'

/-- A run that has come some steps goes on from there. -/
theorem Steps.run_eq {n : Nat} (h : Steps n o o') (k : Nat) :
    o.run (n + k) = o'.run k := by
  induction h generalizing k with
  | none o => rw [Nat.zero_add]
  | @next n o o₁ o' before step ih =>
    rw [Nat.add_assoc, Nat.add_comm 1, ih, run_succ, step]

end Sequencing

/-- The first copy by turn has the least turn. -/
theorem first?_least (h : Copy.first? cs = some c) :
    ∀ d ∈ cs, c.turn ≤ d.turn := by
  induction cs generalizing c with
  | nil => cases h
  | cons e cs ih =>
      rw [Copy.first?] at h
      intro d hd
      cases hrest : Copy.first? cs with
      | none =>
          rw [hrest] at h
          cases h
          have hnil := first?_spec cs
          rw [hrest] at hnil
          rw [hnil, List.mem_singleton] at hd
          exact hd ▸ Nat.le_refl _
      | some e' =>
          have hle := ih hrest
          rw [hrest, Option.some.injEq] at h
          rcases List.mem_cons.mp hd with rfl | hd
          · split at h <;> subst h <;> omega
          · have := hle d hd
            split at h <;> subst h <;> omega

/-- Following a value saved does not change whose turn it is. -/
theorem turn_followSaved (saved dest : ValueId) (p : Copy) :
    (followSaved saved dest p).turn = p.turn := by
  unfold followSaved
  split <;> rfl

/-- Copies that are ready are kept by their turns. -/
theorem insertByTurn_sorted (h : cs.Pairwise (·.turn ≤ ·.turn)) :
    (c.insertByTurn cs).Pairwise (·.turn ≤ ·.turn) := by
  induction cs with
  | nil => exact List.pairwise_singleton _ _
  | cons d cs ih =>
      obtain ⟨hd, hcs⟩ := List.pairwise_cons.mp h
      rw [Copy.insertByTurn]
      split
      · next hlt =>
        refine List.pairwise_cons.mpr ⟨fun e he => ?_, h⟩
        rcases List.mem_cons.mp he with rfl | he
        · exact hlt.le
        · exact hlt.le.trans (hd e he)
      · next hge =>
        refine List.pairwise_cons.mpr ⟨fun e he => ?_, ih hcs⟩
        rcases mem_insertByTurn.mp he with rfl | he
        · exact Nat.not_lt.mp hge
        · exact hd e he

/-- All that is known about the state of the loop. -/
structure Going (cs : List Copy) (bound : Int) (saved : List ValueId)
    (o : Sequencing) : Prop
    extends Booked bound o, Unwinding cs bound saved o where
  turns : (o.waiting.map (·.turn)).Nodup
  sorted : o.ready.Pairwise (·.turn ≤ ·.turn)
  room : o.func.nextValue.toInt + stepsLeft o < 2 ^ 63

namespace Going

variable {saved : List ValueId}

theorem start {f : Func} (hdis : (cs.map (·.dest)).Nodup)
    (hturns : (cs.map (·.turn)).Pairwise (· < ·))
    (hids : ∀ c ∈ cs, c.dest.toInt < f.nextValue.toInt
      ∧ ∀ v, c.source = .value v → v.toInt < f.nextValue.toInt)
    (hroom : f.nextValue.toInt + (2 * cs.length + 1 : Nat) < 2 ^ 63) :
    Going cs f.nextValue.toInt [] (Sequencing.start f cs) ∧
      stepsLeft (Sequencing.start f cs) ≤ 2 * cs.length := by
  have hsub : (Sequencing.start f cs).waiting.Sublist cs := by
    show (Sequencing.effective cs).Sublist cs
    exact effective_eq_filter hdis ▸ List.filter_sublist
  have hsteps : stepsLeft (Sequencing.start f cs) ≤ 2 * cs.length := by
    have := hsub.length_le
    unfold stepsLeft
    omega
  refine ⟨⟨booked_start hdis (fun c hc => (hids c hc).1) (le_refl _)
    fun c hc => (hids c hc).2, Unwinding.start hdis rfl, ?_, ?_, ?_⟩, hsteps⟩
  · exact (hturns.sublist (hsub.map _)).imp Nat.ne_of_lt
  · have hfold (ws rs : List Copy) (hrs : rs.Pairwise (·.turn ≤ ·.turn)) :
        (ws.foldl (fun r c => c.insertByTurn r) rs).Pairwise
        (·.turn ≤ ·.turn) := by
      induction ws generalizing rs with
      | nil => exact hrs
      | cons w ws ih => exact ih _ (insertByTurn_sorted hrs)
    exact hfold _ [] .nil
  · show f.nextValue.toInt + stepsLeft (Sequencing.start f cs) < 2 ^ 63
    omega

/-- One round of the loop keeps all that, and takes one of the steps that are
left. -/
theorem advance (h : Going cs bound saved o) (hdis : (cs.map (·.dest)).Nodup)
    (hlow : ∀ c ∈ cs, c.dest.toInt < bound) (hnext : o.next? = some o') :
    (∃ saved', Going cs bound saved' o') ∧ stepsLeft o' < stepsLeft o := by
  have hroom := h.room
  rw [Sequencing.next?] at hnext
  cases hr : o.ready with
  | cons c ready =>
      rw [hr] at hnext
      cases hnext
      have hlen := length_emit h.toBooked hr
      have hsteps : stepsLeft (o.emit c ready) < stepsLeft o := by
        have hle : stepsLeft (o.emit c ready)
            ≤ 2 * (o.emit c ready).waiting.length := Nat.sub_le _ _
        have heq : stepsLeft o = 2 * o.waiting.length - 1 := by
          rw [stepsLeft, if_neg (by simp [hr])]
        omega
      refine ⟨⟨saved, h.toBooked.emit hr,
        h.toUnwinding.emit h.toBooked hdis hr, ?_, ?_, ?_⟩, hsteps⟩
      · rw [Sequencing.emit_eq]
        exact h.turns.sublist (List.filter_sublist.map _)
      · have hsorted : ready.Pairwise (·.turn ≤ ·.turn) :=
          (List.pairwise_cons.mp (hr ▸ h.sorted)).2
        rw [Sequencing.ready_emit]
        split
        · exact hsorted
        · split
          · exact insertByTurn_sorted hsorted
          · exact hsorted
      · have hfunc : (o.emit c ready).func = o.func := by
          rw [Sequencing.emit_eq]
        rw [hfunc]
        omega
  | nil =>
      rw [hr] at hnext
      obtain ⟨c, hc, rfl⟩ := Option.map_eq_some_iff.mp hnext
      have hfirst := first?_spec o.waiting
      rw [hc] at hfirst
      have hpos := List.length_pos_of_mem hfirst
      have hsteps : stepsLeft (o.breakCycle c) < stepsLeft o := by
        have heq : stepsLeft (o.breakCycle c) = 2 * o.waiting.length - 1 := by
          rw [stepsLeft, if_neg (by simp [Sequencing.breakCycle]),
            waiting_breakCycle, List.length_map]
        have heq' : stepsLeft o = 2 * o.waiting.length := by
          rw [stepsLeft, if_pos hr, Nat.sub_zero]
        omega
      have hone : o.func.nextValue.toInt + 1 < 2 ^ 63 := by omega
      refine ⟨⟨_, h.toBooked.breakCycle hr hfirst hone,
        h.toUnwinding.breakCycle h.toBooked hdis hlow hr hfirst hone,
          ?_, ?_, ?_⟩, hsteps⟩
      · rw [waiting_breakCycle, List.map_map]
        have hturn : (fun p : Copy => p.turn)
            ∘ followSaved o.func.nextValue c.dest
            = fun p => p.turn := funext fun p => turn_followSaved _ _ p
        rw [hturn]
        exact h.turns
      · exact List.pairwise_singleton _ _
      · show (o.func.nextValue + 1).toInt + _ < _
        rw [toInt_succ hone]
        omega

/-- After any number of rounds. -/
theorem steps (h : Going cs bound saved o) (hdis : (cs.map (·.dest)).Nodup)
    (hlow : ∀ c ∈ cs, c.dest.toInt < bound) {n : Nat}
    (hsteps : Sequencing.Steps n o o') :
    (∃ saved', Going cs bound saved' o') ∧ n + stepsLeft o' ≤ stepsLeft o := by
  induction hsteps with
  | none o => exact ⟨⟨saved, h⟩, by omega⟩
  | @next n o o₁ o' before step ih =>
      obtain ⟨⟨saved₁, h₁⟩, hle⟩ := ih h
      obtain ⟨h', hlt⟩ := h₁.advance hdis hlow step
      exact ⟨h', by omega⟩

/-- The loop comes to a state in which nothing waits. -/
theorem ends (h : Going cs bound saved o) (hdis : (cs.map (·.dest)).Nodup)
    (hlow : ∀ c ∈ cs, c.dest.toInt < bound) :
    ∃ n o', Sequencing.Steps n o o' ∧ o'.waiting = [] := by
  have hgo (k : Nat) : ∀ n o₁ saved₁, Sequencing.Steps n o o₁ →
      Going cs bound saved₁ o₁ →
      stepsLeft o₁ ≤ k → ∃ n o', Sequencing.Steps n o o' ∧ o'.waiting = [] := by
    induction k with
    | zero =>
        intro n o₁ saved₁ hsteps h₁ hk
        refine ⟨n, o₁, hsteps, List.length_eq_zero_iff.mp ?_⟩
        unfold stepsLeft at hk
        split at hk <;> omega
    | succ k ih =>
        intro n o₁ saved₁ hsteps h₁ hk
        cases hnext : o₁.next? with
        | some o₂ =>
            obtain ⟨⟨saved₂, h₂⟩, hlt⟩ := h₁.advance hdis hlow hnext
            exact ih _ _ _ (hsteps.next hnext) h₂ (by omega)
        | none =>
            refine ⟨n, o₁, hsteps, ?_⟩
            rw [Sequencing.next?] at hnext
            cases hr : o₁.ready with
            | cons c ready =>
                rw [hr] at hnext
                cases hnext
            | nil =>
                rw [hr] at hnext
                have hfirst := first?_spec o₁.waiting
                rwa [Option.map_eq_none_iff.mp hnext] at hfirst
  exact hgo _ 0 o saved (.none o) h le_rfl

end Going

/-- Where nothing waits, the loop is over. -/
theorem Booked.run_eq (h : Booked bound o) (hend : o.waiting = []) (k : Nat) :
    o.run k = (o.done, o.func) := by
  have hready : o.ready = [] := by
    refine List.eq_nil_iff_forall_not_mem.mpr fun c hc => ?_
    have := ((h.ready c).mp hc).1
    rw [hend] at this
    cases this
  cases k with
  | zero => rfl
  | succ k => rw [Sequencing.run_succ, Sequencing.next?, hready, hend]; rfl

-- ============================================================ in any order

namespace Sequencing

/-- The same books, in another order. -/
structure Shuffled (o o' : Sequencing) : Prop where
  waiting : o.waiting.Perm o'.waiting
  ready : o.ready.Perm o'.ready
  readers : o.readers = o'.readers
  func : o.func = o'.func
  done : o.done = o'.done

/-- The start, with the copies that count in some order. -/
def startFrom (f : Func) (ws : List Copy) : Sequencing :=
  let readers := countReaders ws
  let ready := ws.filter fun c => readers.getD c.dest 0 = 0
  { waiting := ws, readers, func := f,
    ready := ready.foldl (fun r c => c.insertByTurn r) [] }

/-- One round of the loop with the books in any order: a ready copy whose turn
comes first is done; where none is ready, a cycle is broken at the waiting copy
whose turn comes first. -/
inductive Turn : Sequencing → Sequencing → Prop where
  | emit {o o' : Sequencing} {c : Copy} {ready : List Copy}
      (take : o.ready.Perm (c :: ready))
      (least : ∀ d ∈ ready, c.turn ≤ d.turn)
      (after : (o.emit c ready).Shuffled o') : Turn o o'
  | breakCycle {o o' : Sequencing} {c : Copy} (stuck : o.ready = [])
      (waits : c ∈ o.waiting)
      (least : ∀ d ∈ o.waiting, c.turn ≤ d.turn)
      (after : (o.breakCycle c).Shuffled o') : Turn o o'

/-- So many rounds, with the books in any order. -/
inductive Turns : Nat → Sequencing → Sequencing → Prop where
  | none (o : Sequencing) : Turns 0 o o
  | next {n : Nat} {o o₁ o' : Sequencing} (before : Turns n o o₁)
      (turn : Turn o₁ o') :
      Turns (n + 1) o o'

-- States that differ in the order of their lists only.
theorem Shuffled.refl (o : Sequencing) : o.Shuffled o :=
  ⟨.refl _, .refl _, rfl, rfl, rfl⟩

theorem Shuffled.trans {o o₁ o' : Sequencing} (h : o.Shuffled o₁)
    (h' : o₁.Shuffled o') : o.Shuffled o' :=
  ⟨h.waiting.trans h'.waiting, h.ready.trans h'.ready,
    h.readers.trans h'.readers, h.func.trans h'.func, h.done.trans h'.done⟩

end Sequencing

open Sequencing

/-- Inserting by turn puts in the copy and leaves the others. -/
theorem insertByTurn_perm (c : Copy) (cs : List Copy) :
    (c.insertByTurn cs).Perm (c :: cs) := by
  induction cs with
  | nil => exact .refl _
  | cons d cs ih =>
      rw [Copy.insertByTurn]
      split
      · exact .refl _
      · exact (ih.cons d).trans (.swap c d cs)

/-- Distinct destinations are found in any order. -/
theorem find?_dest_perm {ws ws' : List Copy} (h : ws.Perm ws')
    (hdis : (ws.map (·.dest)).Nodup) (v : ValueId) :
    ws.find? (·.dest = v) = ws'.find? (·.dest = v) := by
  cases hfind : ws.find? (·.dest = v) with
  | none =>
      refine (List.find?_eq_none.mpr fun c hc => ?_).symm
      exact List.find?_eq_none.mp hfind c (h.mem_iff.mpr hc)
  | some c =>
      have hc : c ∈ ws := List.mem_of_find?_eq_some hfind
      have hcv : c.dest = v := by simpa using List.find?_some hfind
      cases hfind' : ws'.find? (·.dest = v) with
      | none =>
          have := List.find?_eq_none.mp hfind' c (h.mem_iff.mp hc)
          simp [hcv] at this
      | some d =>
          have hd : d ∈ ws := h.mem_iff.mpr (List.mem_of_find?_eq_some hfind')
          have hdv : d.dest = v := by simpa using List.find?_some hfind'
          rw [eq_of_dest_eq hdis hc hd (hcv.trans hdv.symm)]

/-- Emitting a copy takes one from the readers of its source. -/
theorem readers_emit (o : Sequencing) (c : Copy) (ready : List Copy) :
    (o.emit c ready).readers = match c.source.id? with
      | none => o.readers
      | some v => o.readers.insert v (o.readersOf v - 1) := by
  unfold Sequencing.emit
  dsimp only
  cases c.source.id? with
  | none => rfl
  | some v =>
      dsimp only
      split
      · split <;> rfl
      · rfl

/-- Doing a copy does not look at the order of the books. -/
theorem Sequencing.Shuffled.emit (h : o.Shuffled o')
    (hdis : (o.waiting.map (·.dest)).Nodup) {ready ready' : List Copy}
    (hready : ready.Perm ready') (c : Copy) :
    (o.emit c ready).Shuffled (o'.emit c ready') := by
  have hfilter : (o.waiting.filter (·.dest ≠ c.dest)).Perm
      (o'.waiting.filter (·.dest ≠ c.dest)) :=
    h.waiting.filter _
  have hfind (v : ValueId) := find?_dest_perm hfilter
    (hdis.sublist (List.filter_sublist.map _)) v
  have hread (v : ValueId) : o.readersOf v = o'.readersOf v := by
    rw [Sequencing.readersOf, Sequencing.readersOf, h.readers]
  refine ⟨?_, ?_, ?_, ?_, ?_⟩
  · rw [Sequencing.emit_eq, Sequencing.emit_eq (o := o')]
    exact hfilter
  · rw [Sequencing.ready_emit, Sequencing.ready_emit]
    simp only [hfind]
    split
    · exact hready
    · next p _ =>
      rw [hread]
      split
      · exact (insertByTurn_perm p _).trans
          ((hready.cons p).trans (insertByTurn_perm p _).symm)
      · exact hready
  · rw [readers_emit, readers_emit]
    cases c.source.id? with
    | none => exact h.readers
    | some v => simp only [hread, h.readers]
  · rw [Sequencing.emit_eq, Sequencing.emit_eq (o := o')]
    exact h.func
  · rw [Sequencing.emit_eq, Sequencing.emit_eq (o := o')]
    exact congrArg (· ++ [c]) h.done

/-- Breaking a cycle does not look at the order of the books. -/
theorem Sequencing.Shuffled.breakCycle (h : o.Shuffled o') (c : Copy) :
    (o.breakCycle c).Shuffled (o'.breakCycle c) := by
  refine ⟨?_, ?_, ?_, ?_, ?_⟩
  · rw [waiting_breakCycle, waiting_breakCycle, h.func]
    exact h.waiting.map _
  · simp only [Sequencing.breakCycle, h.func]
    exact .refl _
  · simp only [Sequencing.breakCycle, h.readers]
  · simp only [Sequencing.breakCycle, h.func]
  · simp only [Sequencing.breakCycle, h.func, h.done]

/-- Copies are told apart by their turns. -/
theorem eq_of_turn_eq (h : (cs.map (·.turn)).Nodup) {c d : Copy}
    (hc : c ∈ cs) (hd : d ∈ cs) (heq : c.turn = d.turn) : c = d :=
  List.inj_on_of_nodup_map h hc hd heq

/-- A round with the books in any order is the next round of the loop. -/
theorem Sequencing.Shuffled.turn {saved : List ValueId} (h : o.Shuffled o₁)
    (hG : Going cs bound saved o) (ht : Turn o₁ o') :
    ∃ o₂, o.next? = some o₂ ∧ o₂.Shuffled o' := by
  cases ht with
  | @emit c ready take least after =>
      have htake : o.ready.Perm (c :: ready) := h.ready.trans take
      cases hr : o.ready with
      | nil =>
          rw [hr] at htake
          exact absurd htake.nil_eq.symm (List.cons_ne_nil c ready)
      | cons d rest =>
          rw [hr] at htake
          have hsorted := hG.sorted
          rw [hr, List.pairwise_cons] at hsorted
          have hwaits (e : Copy) (he : e ∈ d :: rest) : e ∈ o.waiting :=
            ((hG.ready e).mp (hr ▸ he)).1
          have hcd : c = d := by
            have hc : c ∈ d :: rest := htake.mem_iff.mpr List.mem_cons_self
            have hd : d ∈ c :: ready := htake.mem_iff.mp List.mem_cons_self
            refine eq_of_turn_eq hG.turns (hwaits c hc)
              (hwaits d List.mem_cons_self) ?_
            have hdc : d.turn ≤ c.turn := by
              rcases List.mem_cons.mp hc with rfl | hc
              · exact Nat.le_refl _
              · exact hsorted.1 c hc
            have hcd : c.turn ≤ d.turn := by
              rcases List.mem_cons.mp hd with rfl | hd
              · exact Nat.le_refl _
              · exact least d hd
            omega
          subst hcd
          refine ⟨o.emit c rest, by rw [Sequencing.next?, hr], ?_⟩
          exact (h.emit hG.distinct htake.cons_inv c).trans after
  | @breakCycle c stuck waits least after =>
      have hr : o.ready = [] := by
        have := h.ready
        rw [stuck] at this
        exact this.eq_nil
      have hc : c ∈ o.waiting := h.waiting.mem_iff.mpr waits
      have hfirst := first?_spec o.waiting
      cases hd : Copy.first? o.waiting with
      | none =>
          rw [hd] at hfirst
          rw [hfirst] at hc
          cases hc
      | some d =>
          rw [hd] at hfirst
          have hcd : c = d := by
            refine eq_of_turn_eq hG.turns hc hfirst ?_
            have := first?_least hd c hc
            have := least d (h.waiting.mem_iff.mp hfirst)
            omega
          subst hcd
          refine ⟨o.breakCycle c, by rw [Sequencing.next?, hr, hd]; rfl, ?_⟩
          exact (h.breakCycle c).trans after

/-- So are any number of them. -/
theorem Sequencing.Shuffled.turns {saved : List ValueId} (h : o.Shuffled o₁)
    (hG : Going cs bound saved o) (hdis : (cs.map (·.dest)).Nodup)
    (hlow : ∀ c ∈ cs, c.dest.toInt < bound) {n : Nat} (ht : Turns n o₁ o') :
    ∃ o₂, Steps n o o₂ ∧ o₂.Shuffled o' := by
  induction ht with
  | none o₁ => exact ⟨o, .none o, h⟩
  | @next n o₁ o₂ o' before turn ih =>
      obtain ⟨o₃, hsteps, hshuffled⟩ := ih h
      obtain ⟨⟨saved₃, h₃⟩, -⟩ := hG.steps hdis hlow hsteps
      obtain ⟨o₄, hnext, hshuffled'⟩ := hshuffled.turn h₃ turn
      exact ⟨o₄, hsteps.next hnext, hshuffled'⟩

/-- Counting values into a table. -/
theorem getElem?_countInto (vs : List ValueId)
    (m : Std.ExtTreeMap ValueId Int) (v : ValueId) :
    (vs.foldl (fun m v => m.insert v (m.getD v 0 + 1)) m)[v]?
      = if v ∈ vs then some (m.getD v 0 + vs.count v) else m[v]? := by
  induction vs generalizing m with
  | nil => simp
  | cons u vs ih =>
      rw [List.foldl_cons, ih, Std.ExtTreeMap.getElem?_insert,
        Std.ExtTreeMap.getD_insert, List.count_cons]
      by_cases huv : u = v
      · subst huv
        by_cases hu : u ∈ vs
        · simp [hu]
          omega
        · simp [hu, List.count_eq_zero_of_not_mem hu]
      · simp [huv, Ne.symm huv]

/-- The readers of copies are counted in any order. -/
theorem countReaders_perm {ws ws' : List Copy} (h : ws.Perm ws') :
    Sequencing.countReaders ws = Sequencing.countReaders ws' := by
  have hids : (Operand.ids (ws.map (·.source))).Perm
      (Operand.ids (ws'.map (·.source))) :=
    (h.map _).filterMap _
  refine Std.ExtTreeMap.ext_getElem? fun v => ?_
  rw [Sequencing.countReaders, Sequencing.countReaders, getElem?_countInto,
    getElem?_countInto, hids.count_eq]
  simp only [hids.mem_iff]

/-- The start in any order. -/
theorem shuffled_start {f : Func} {ws : List Copy}
    (h : ws.Perm (Sequencing.effective cs)) :
    (Sequencing.start f cs).Shuffled (Sequencing.startFrom f ws) := by
  have hinsert (ws rs : List Copy) :
      (ws.foldl (fun r c => c.insertByTurn r) rs).Perm (ws ++ rs) := by
    induction ws generalizing rs with
    | nil => exact .refl _
    | cons w ws ih =>
        refine (ih _).trans ?_
        exact ((insertByTurn_perm w rs).append_left ws).trans List.perm_middle
  refine ⟨h.symm, ?_, (countReaders_perm h).symm, rfl, rfl⟩
  refine (hinsert _ []).trans (List.Perm.trans ?_ (hinsert _ []).symm)
  rw [countReaders_perm h]
  exact (h.symm.filter _).append_right []

/-- Where something waits, a round is possible. -/
theorem exists_turn (h : o.waiting ≠ []) : ∃ o', Turn o o' := by
  have hleast (ws : List Copy) (hws : ws ≠ []) : ∃ c ∈ ws, ∀ d ∈ ws,
      c.turn ≤ d.turn := by
    have hfirst := first?_spec ws
    cases hc : Copy.first? ws with
    | none =>
        rw [hc] at hfirst
        exact absurd hfirst hws
    | some c =>
        rw [hc] at hfirst
        exact ⟨c, hfirst, first?_least hc⟩
  by_cases hr : o.ready = []
  · obtain ⟨c, hc, hle⟩ := hleast o.waiting h
    exact ⟨_, .breakCycle hr hc hle (.refl _)⟩
  · obtain ⟨c, hc, hle⟩ := hleast o.ready hr
    obtain ⟨before, behind, hsplit⟩ := List.append_of_mem hc
    refine ⟨o.emit c (before ++ behind),
      .emit ?_ (fun d hd => hle d ?_) (.refl _)⟩
    · rw [hsplit]
      exact List.perm_middle
    · rw [hsplit]
      rcases List.mem_append.mp hd with hd | hd
      · exact List.mem_append_left _ hd
      · exact List.mem_append_right _ (List.mem_cons_of_mem _ hd)

-- ================================================================ all of it

/-- For copies with distinct destinations, in turn, of values below the counter:
what comes out does one after the other what the copies do at once; it assigns
each destination that does not keep its value once, and beside them one fresh
value for each cycle; and in whatever order the books lie, after so many rounds
the same comes out. -/
theorem sequentialize_parallel {f : Func} (hdistinct : (cs.map (·.dest)).Nodup)
    (hturns : (cs.map (·.turn)).Pairwise (· < ·))
    (hids : ∀ c ∈ cs, c.dest.toInt < f.nextValue.toInt
      ∧ ∀ v, c.source = .value v → v.toInt < f.nextValue.toInt)
    (hroom : f.nextValue.toInt + (2 * cs.length + 1 : Nat) < 2 ^ 63) :
    ∃ out g saved, sequentialize f cs = (out, g)
      ∧ (∀ fr₀ : Frame, (∀ c ∈ cs, (look fr₀ c.source).isSome = true) →
        ∃ fr, assignAll fr₀ out = some fr
          ∧ (∀ c ∈ cs, fr[c.dest]? = look fr₀ c.source)
          ∧ ∀ v : ValueId, v.toInt < f.nextValue.toInt →
            (∀ c ∈ cs, c.dest ≠ v) →
            fr[v]? = fr₀[v]?)
      ∧ ((out.filter (·.dest.toInt < f.nextValue.toInt)).map (·.dest)).Perm
        ((cs.filter (!·.isIdle)).map (·.dest))
      ∧ (out.filter (f.nextValue.toInt ≤ ·.dest.toInt)).map
        (fun c => (c.dest.toInt, c.source))
        = saved.zipIdx.map
        (fun (v, i) => (f.nextValue.toInt + i, Operand.value v))
      ∧ g.nextValue.toInt = f.nextValue.toInt + saved.length
      ∧ OnePerCycle cs saved
      ∧ ∀ ws, ws.Perm (Sequencing.effective cs) → ∀ n o, Turns n
        (startFrom f ws) o →
        n ≤ 2 * cs.length ∧ (o.waiting ≠ [] → ∃ o', Turn o o')
          ∧ (o.waiting = [] → (o.done, o.func) = (out, g)) := by
  obtain ⟨hstart, hleft⟩ := Going.start hdistinct hturns hids hroom
  have hlow (c : Copy) (hc : c ∈ cs) := (hids c hc).1
  -- the end of the loop is the answer
  have hanswer (n : Nat) (o : Sequencing)
      (hsteps : Steps n (Sequencing.start f cs) o)
      (hend : o.waiting = []) : sequentialize f cs = (o.done, o.func) := by
    obtain ⟨⟨saved, hG⟩, hn⟩ := hstart.steps hdistinct hlow hsteps
    obtain ⟨k, hk⟩ : ∃ k, 2 * cs.length + 1 = n + k :=
      ⟨2 * cs.length + 1 - n, by omega⟩
    rw [sequentialize, hk, hsteps.run_eq, hG.toBooked.run_eq hend]
  obtain ⟨n, o, hsteps, hend⟩ := hstart.ends hdistinct hlow
  obtain ⟨⟨saved, hG⟩, -⟩ := hstart.steps hdistinct hlow hsteps
  have heq := hanswer n o hsteps hend
  refine ⟨o.done, o.func, saved, heq, fun fr₀ hdefined => ?_, ?_, hG.temps,
    hG.toUnwinding.next, hG.onePerCycle hend, fun ws hws n o' hturns => ?_⟩
  · have hperforms :=
      sequentialize_performs (le_refl _) (fun c hc => (hids c hc).2) hroom
    rw [heq] at hperforms
    exact hperforms fr₀ ⟨hdistinct, hlow, hdefined⟩
  · have hdests := hG.dests
    rwa [hend, List.append_nil] at hdests
  · obtain ⟨o₂, hsteps₂, hshuffled⟩ :=
      (shuffled_start hws).turns hstart hdistinct hlow hturns
    obtain ⟨-, hn⟩ := hstart.steps hdistinct hlow hsteps₂
    refine ⟨by omega, exists_turn, fun hend' => ?_⟩
    have hend₂ : o₂.waiting = [] := by
      have := hshuffled.waiting
      rw [hend'] at this
      exact this.eq_nil
    rw [← hshuffled.done, ← hshuffled.func, ← hanswer n o₂ hsteps₂ hend₂, heq]

/-- A swap, a cycle of three with a copy hanging off it, a copy to itself and a
literal. -/
def tangled : List Copy :=
  [⟨0, 0, .value 1, .felt⟩, ⟨1, 1, .value 0, .felt⟩, ⟨2, 2, .value 3, .felt⟩,
    ⟨3, 3, .value 4, .felt⟩, ⟨4, 4, .value 2, .felt⟩, ⟨5, 5, .value 2, .felt⟩,
    ⟨6, 6, .value 6, .felt⟩, ⟨7, 7, .int 9, .felt⟩]

/-- Two cycles and a chain that hangs on one of them. -/
theorem sequentialize_parallel_tangled :
    ∃ out g saved, sequentialize
      { Func.named "f" with nextValue := 8 } tangled = (out, g)
      ∧ OnePerCycle tangled saved ∧ g.nextValue.toInt = 8 + saved.length := by
  have hids : ∀ c ∈ tangled, c.dest.toInt < (8 : ValueId).toInt
      ∧ ∀ v, c.source = .value v → v.toInt < (8 : ValueId).toInt := by
    simp [tangled]
  obtain ⟨out, g, saved, heq, -, -, -, hnext, hcycles, -⟩ :=
    @sequentialize_parallel tangled { Func.named "f" with nextValue := 8 }
      (by decide) (by decide)
      hids (by decide)
  exact ⟨out, g, saved, heq, hcycles, hnext⟩

end MirBackend.ParallelCopy
