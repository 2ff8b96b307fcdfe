/-
Runs without instructions whose results nobody reads.

An instruction is *quiet* when it leaves the machine as it finds it: it reads
memory at most, and assigns its results. If nobody reads them either, the rest
of the run does not notice that it is gone. Frames then differ in values that
are never read and agree on all others, and that is kept by every step
(`keepInstrs_replacement`).
-/
import Mathlib
import MirBackend.Proofs.Func.Modules
import MirBackend.Proofs.Interp.Frame
import MirBackend.Proofs.Interp.Refinement
import MirBackend.Proofs.Pass.Removal

namespace MirBackend

-- ====================================================== quiet instructions

/-- Whether the instruction leaves memory and trace alone and calls nobody. -/
def Instr.isQuiet : Instr → Bool
  | .call .. | .store .. | .frameAlloc .. | .addressOf .. | .makeArray
      .. | .debug .. => false
  | _ => true

/-- Whether the instruction reads and sets values of the frame only. -/
def Instr.isLocal : Instr → Bool
  | .load .. => false
  | i => i.isQuiet

namespace Interp

/-- A part of a run that neither needs nor touches the machine. -/
def Detached {α : Type} (x : Exec α) : Prop := ∀ s a s', x s = .ok a s' →
    s' = s ∧ ∀ u, x u = .ok a u

namespace Detached

variable {α β : Type}

-- Not looking at memory or the clock is kept by every way in which steps are
-- put together.
theorem pure (a : α) : Detached (Pure.pure a : Exec α) := by
  intro s b s' h
  obtain ⟨rfl, rfl⟩ := pure_ok_iff.mp h
  exact ⟨rfl, fun _ => rfl⟩

theorem fail (e : RunError) : Detached (failWith e : Exec α) :=
  fun _ _ _ h => absurd h failWith_ne_ok

theorem bind {x : Exec α} {k : α → Exec β} (hx : Detached x)
    (hk : ∀ a, Detached (k a)) : Detached (x >>= k) := by
  intro s b s' h
  obtain ⟨a, s₁, h₁, h₂⟩ := bind_ok_iff.mp h
  obtain ⟨rfl, hx⟩ := hx s a s₁ h₁
  obtain ⟨rfl, hk⟩ := hk a s₁ b s' h₂
  exact ⟨rfl, fun u => bind_ok_iff.mpr ⟨a, u, hx u, hk u⟩⟩

theorem lift (x : Access α) : Detached (lift x) := by
  intro s a s' h
  obtain ⟨rfl, rfl⟩ := lift_ok_iff.mp h
  exact ⟨rfl, fun _ => rfl⟩

theorem sure (x : Checked α) : Detached (sure x) := Detached.lift _

theorem eval (fr : Frame) (v : Operand) : Detached (eval fr v) := by
  intro s a s' h
  obtain ⟨ha, rfl⟩ := eval_ok_iff.mp h
  exact ⟨rfl, fun _ => eval_ok_iff.mpr ⟨ha, rfl⟩⟩

theorem scalar (fr : Frame) (v : Operand) : Detached (scalar fr v) := by
  intro s a s' h
  obtain ⟨ha, rfl⟩ := scalar_ok_iff.mp h
  exact ⟨rfl, fun _ => scalar_ok_iff.mpr ⟨ha, rfl⟩⟩

theorem mapM_eval (fr : Frame) (vs : List Operand) :
    Detached (vs.mapM (Interp.eval fr)) := by
  intro s a s' h
  obtain ⟨ha, rfl⟩ := mapM_eval_ok_iff.mp h
  exact ⟨rfl, fun _ => mapM_eval_ok_iff.mpr ⟨ha, rfl⟩⟩

theorem putFields (fr : Frame) (r : Record)
    (fs : List (String × Operand)) (v : Value) :
    Detached (putFields fr r fs v) := by
  induction fs generalizing v with
  | nil => exact Detached.pure _
  | cons x fs ih =>
      obtain ⟨n, x⟩ := x
      unfold Interp.putFields
      split
      · exact Detached.fail _
      · exact (Detached.eval fr x).bind fun y =>
          (Detached.sure _).bind fun w => ih w

end Detached

/-- A local instruction neither needs nor touches the machine. -/
theorem exec_detached {f : Func} {fr : Frame} {i : Instr}
    (hi : i.isLocal = true) : Detached (exec ⟨[]⟩ refuse f fr i) := by
  cases i with
  | call | store | frameAlloc | addressOf | makeArray | debug | load => cases hi
  | missing => exact Detached.fail _
  | phi d t ss => exact Detached.fail _
  | nop => exact Detached.pure _
  | assign d v t => exact (Detached.eval fr v).bind fun _ => Detached.pure _
  | cast d v t u => exact (Detached.eval fr v).bind fun _ => Detached.pure _
  | unary op d v =>
      exact (Detached.scalar fr v).bind fun _ =>
        (Detached.lift _).bind fun _ => Detached.pure _
  | binary op d l r =>
      exact (Detached.eval fr l).bind fun _ =>
        (Detached.eval fr r).bind fun _ =>
        (Detached.lift _).bind fun _ => Detached.pure _
  | elementPtr d base off =>
      exact (Detached.scalar fr base).bind fun _ =>
        (Detached.scalar fr off).bind fun _ =>
        Detached.pure _
  | makeTuple d es ts =>
      exact (Detached.mapM_eval fr es).bind fun _ => Detached.pure _
  | makeStruct d fs r =>
      exact (Detached.putFields fr r fs _).bind fun _ => Detached.pure _
  | extractTuple d v j t =>
      refine (Detached.eval fr v).bind fun _ => ?_
      split
      · split
        · exact Detached.fail _
        · exact (Detached.sure _).bind fun _ => Detached.pure _
      · exact Detached.fail _
  | extractField d v n t =>
      refine (Detached.eval fr v).bind fun _ => ?_
      split
      · exact Detached.fail _
      · split
        · exact Detached.fail _
        · exact (Detached.sure _).bind fun _ => Detached.pure _
  | insertTuple d agg j v ts =>
      refine (Detached.eval fr agg).bind fun _ =>
        (Detached.eval fr v).bind fun _ => ?_
      split
      · exact Detached.fail _
      · exact (Detached.sure _).bind fun _ => Detached.pure _
  | insertField d agg n v r =>
      refine (Detached.eval fr agg).bind fun _ =>
        (Detached.eval fr v).bind fun _ => ?_
      split
      · exact Detached.fail _
      · exact (Detached.sure _).bind fun _ => Detached.pure _

/-- A quiet instruction leaves the machine as it was. -/
theorem exec_quiet {f : Func} {fr fr₁ : Frame} {i : Instr} {s s' : Machine}
    (hi : i.isQuiet = true)
    (h : exec ⟨[]⟩ refuse f fr i s = .ok fr₁ s') : s' = s := by
  cases i with
  | call | store | frameAlloc | addressOf | makeArray | debug => cases hi
  | load d t address =>
      obtain ⟨a, v, -, -, -, hs⟩ := exec_load_ok_iff.mp h
      exact hs
  | _ => exact (exec_detached rfl s fr₁ s' h).1

end Interp

-- ========================================================= entering a block

namespace Block

/-- Phis at the head, then what is no phi: the head is what it seems. -/
theorem takeWhile_isPhi_append {ps is : List Instr}
    (hps : ∀ i ∈ ps, i.isPhi = true) (his : ∀ i ∈ is, i.isPhi = false) :
    (ps ++ is).takeWhile Instr.isPhi = ps
      ∧ (ps ++ is).dropWhile Instr.isPhi = is := by
  have hhead : is.takeWhile Instr.isPhi = []
      ∧ is.dropWhile Instr.isPhi = is := by
    cases is with
    | nil => exact ⟨rfl, rfl⟩
    | cons i is =>
        have hi := his i List.mem_cons_self
        exact ⟨List.takeWhile_cons_of_neg (by simp [hi]),
          List.dropWhile_cons_of_neg (by simp [hi])⟩
  refine ⟨?_, ?_⟩
  · rw [List.takeWhile_append_of_pos hps, hhead.1, List.append_nil]
  · rw [List.dropWhile_append_of_pos hps, hhead.2]

end Block

namespace Func

open Interp

/-- Head and body of a block of which some instructions are kept. -/
theorem keptBlock_parts {b : Block} (keep : Instr → Bool)
    (hbody : ∀ i ∈ b.body, i.isPhi = false) :
    (keptBlock keep b).leadingPhis = b.leadingPhis.filter keep
    ∧ (keptBlock keep b).body = b.body.filter keep := by
  have hinstrs : (keptBlock keep b).instrs = b.leadingPhis.filter keep
      ++ b.body.filter keep := by
    rw [← List.filter_append, b.leadingPhis_append_body]
    rfl
  unfold Block.leadingPhis Block.body
  rw [hinstrs]
  exact Block.takeWhile_isPhi_append
    (fun i hi => Block.isPhi_of_mem_leadingPhis (List.mem_filter.mp hi).1)
    fun i hi => hbody i (List.mem_filter.mp hi).1

/-- Phis that are kept take what they took, in a frame that agrees on their
sources; the values they define then agree wherever they did, but for those of
the phis dropped. -/
theorem phiLooks_filter (keep : Instr → Bool) {fr fr' : Frame}
    {prev : BlockId} {is : List Instr} {ps : List (ValueId × Value)}
    (hphi : ∀ i ∈ is, i.isPhi = true)
    (hagree : ∀ i ∈ is, Agree fr fr' i.operands)
    (h : phiLooks fr prev is = some ps) :
    ∃ ps', phiLooks fr' prev (is.filter keep) = some ps'
      ∧ ∀ v, (∀ i ∈ is, keep i = false → v ∉ i.dests) → ∀ base base' : Frame,
        base[v]? = base'[v]? → (insertAll base ps)[v]?
            = (insertAll base' ps')[v]? := by
  induction is generalizing ps with
  | nil =>
      cases h
      exact ⟨[], rfl, fun v _ base base' hv => hv⟩
  | cons i is ih =>
      cases i with
      | phi d t ss =>
          rw [phiLooks_cons] at h
          obtain ⟨o, ho, h⟩ := Option.bind_eq_some_iff.mp h
          obtain ⟨s, hs, rfl⟩ := Option.map_eq_some_iff.mp ho
          obtain ⟨x, hx, h⟩ := Option.bind_eq_some_iff.mp h
          obtain ⟨qs, hqs, rfl⟩ := Option.map_eq_some_iff.mp h
          obtain ⟨qs', hqs', hsame⟩ :=
            ih (fun j hj => hphi j (List.mem_cons_of_mem _ hj))
            (fun j hj => hagree j (List.mem_cons_of_mem _ hj)) hqs
          have hx' : look fr' s.value = some x := by
            rw [← hagree _ List.mem_cons_self s.value
              (List.mem_map.mpr ⟨s, List.mem_of_find?_eq_some hs, rfl⟩)]
            exact hx
          cases hk : keep (.phi d t ss) with
          | true =>
              refine ⟨(d, x) :: qs', ?_, fun v hv base base' hbase => ?_⟩
              · rw [List.filter_cons_of_pos hk, phiLooks_cons, hs]
                simp [hx', hqs']
              · refine hsame v (fun j hj => hv j (List.mem_cons_of_mem _ hj))
                  _ _ ?_
                rw [getElem?_insert_frame, getElem?_insert_frame, hbase]
          | false =>
              refine ⟨qs', by rw [List.filter_cons_of_neg (by simp [hk])]; exact hqs',
                fun v hv base base' hbase => ?_⟩
              refine hsame v (fun j hj => hv j (List.mem_cons_of_mem _ hj))
                _ _ ?_
              rw [getElem?_insert_frame, if_neg, hbase]
              rintro rfl
              exact hv _ List.mem_cons_self hk List.mem_cons_self
      | _ => cases hphi _ List.mem_cons_self

-- ==================================================== without instructions

variable {f : Func} {keep : Instr → Bool}

/-- A place in the function and the place in what is kept of it: frames agree on
what the function reads. -/
structure Kept (f : Func) (keep : Instr → Bool)
    (c c' : Interp.Place) : Prop where
  block : c'.block = c.block
  rest : c'.rest = c.rest.filter keep
  here : ∀ i ∈ c.rest, f.HasInstr i
  agree : ∀ v, f.Reads v → c.frame[v]? = c'.frame[v]?

/-- A block is kept with its filtered instructions. -/
theorem block?_keepInstrs_of {b : BlockId} {blk : Block}
    (hb : f.block? b = some blk) :
    (f.keepInstrs keep).block? b = some (keptBlock keep blk) := by
  rw [block?_keepInstrs, hb]
  rfl

/-- A function reads what its instructions read. -/
theorem HasInstr.reads {i : Instr} (hi : f.HasInstr i) {v : ValueId}
    (hv : v ∈ i.uses) : f.Reads v := by
  obtain ⟨b, blk, hb, hmem⟩ := hi
  exact ⟨b, blk, hb, Or.inl ⟨i, hmem, hv⟩⟩

/-- Frames that agree on what is read agree on an instruction's operands. -/
theorem HasInstr.agree {i : Instr} (hi : f.HasInstr i) {fr fr' : Frame}
    (h : ∀ v, f.Reads v → fr[v]? = fr'[v]?) : Agree fr fr' i.operands :=
  agree_of_ids fun v hv => h v (hi.reads hv)

/-- A terminator leads the same way in a frame that agrees on what is read. -/
theorem nextOf_of_reads {b : BlockId} {blk : Block}
    (hb : f.block? b = some blk) {fr fr' : Frame}
    (h : ∀ v, f.Reads v → fr[v]? = fr'[v]?) :
    nextOf fr' blk.term = nextOf fr blk.term := by
  cases ht : blk.term with
  | none => rfl
  | some t =>
      refine (nextOf_congr (agree_of_ids fun v hv => h v ?_)).symm
      exact ⟨b, blk, hb, Or.inr (by rw [ht]; exact hv)⟩

/-- Entering a block of which some phis are gone. -/
theorem Kept.entered (hdrop : f.DropsUnread keep)
    {b prev : BlockId} {blk : Block} (hb : f.block? b = some blk)
    (hbody : ∀ i ∈ blk.body, i.isPhi = false) {fr fr' : Frame}
    {ps : List (ValueId × Value)} (hagree : ∀ v, f.Reads v → fr[v]? = fr'[v]?)
    (hps : phiLooks fr prev blk.leadingPhis = some ps) :
    ∃ ps', phiLooks fr' prev (keptBlock keep blk).leadingPhis = some ps'
      ∧ Kept f keep ⟨b, blk.body, insertAll fr ps⟩
        ⟨b, (keptBlock keep blk).body, insertAll fr' ps'⟩ := by
  obtain ⟨hlead, hrest⟩ := keptBlock_parts keep hbody
  have hhere (i : Instr) (hi : i ∈ blk.leadingPhis) : f.HasInstr i :=
    ⟨b, blk, hb, Block.mem_of_mem_leadingPhis hi⟩
  obtain ⟨ps', hps', hsame⟩ := phiLooks_filter keep
    (fun i hi => Block.isPhi_of_mem_leadingPhis hi)
    (fun i hi => (hhere i hi).agree hagree) hps
  rw [hlead, hrest]
  refine ⟨ps', hps', rfl, rfl,
    fun i hi => ⟨b, blk, hb, Block.mem_of_mem_body hi⟩, fun v hv => ?_⟩
  exact hsame v (fun i hi hk hd => hdrop i (hhere i hi) hk v hd hv)
    fr fr' (hagree v hv)

/-- What is kept follows the function, if what is dropped is quiet and
unread. -/
theorem keepInstrs_replacement (hdrop : f.DropsUnread keep)
    (hquiet : ∀ i, f.HasInstr i → keep i = false → i.isQuiet = true)
    {m m' : Module} {k : FuncId} (hold : m.func? k = some f)
    (hnew : m'.func? k = some (f.keepInstrs keep))
    (hothers : ∀ j, j ≠ k → m'.func? j = m.func? j) :
    Replacement m m' k f (f.keepInstrs keep) (fun _ => True) (Kept f keep) where
  old := hold
  new := hnew
  others := hothers
  enter := by
    intro xs b ps hcount hb hbody hps
    obtain ⟨ps', hps', hkept⟩ :=
      Kept.entered hdrop hb hbody (fun _ _ => rfl) hps
    exact ⟨_, ps', hcount, block?_keepInstrs_of hb, hps', hkept⟩
  -- a kept instruction is done on both sides, a dropped one is quiet and sets
  -- what nobody reads
  instr := by
    intro cur i is fr c' fr₁ w w₁ _ hR hrun
    have hi := hR.here i List.mem_cons_self
    obtain ⟨vs, hlen, rfl, hrun'⟩ :=
      exec_sets (g := f.keepInstrs keep) (hi.agree hR.agree)
        (fun _ _ => rfl) w fr₁ w₁ hrun
    have hrest := hR.rest
    obtain ⟨cb, crest, cfr⟩ := c'
    obtain rfl : cb = cur := hR.block
    cases hk : keep i with
    | true =>
        rw [List.filter_cons_of_pos hk] at hrest
        refine ⟨⟨cb, is.filter keep, insertAll cfr (i.dests.zip vs)⟩,
          ⟨rfl, rfl, ?_, ?_⟩, ?_⟩
        · exact fun j hj => hR.here j (List.mem_cons_of_mem _ hj)
        · exact fun v hv => getElem?_insertAll_congr fun _ => hR.agree v hv
        · intro n rs w' hn
          refine ⟨n + 1, le_refl _, ?_⟩
          rw [show crest = i :: is.filter keep from hrest]
          exact .instr hnew hrun' hn
    | false =>
        rw [List.filter_cons_of_neg (by simp [hk])] at hrest
        obtain rfl : w₁ = w := exec_quiet (hquiet i hi hk) hrun
        refine ⟨⟨cb, crest, cfr⟩, ⟨rfl, hrest, ?_, ?_⟩, .refl _ _⟩
        · exact fun j hj => hR.here j (List.mem_cons_of_mem _ hj)
        · intro v hv
          rw [← hR.agree v hv]
          refine getElem?_insertAll_of_not_mem fun hm => hdrop i hi hk v ?_ hv
          obtain ⟨p, hp, rfl⟩ := List.mem_map.mp hm
          exact (List.of_mem_zip hp).1
  -- calls are not quiet, so they are kept
  call := by
    intro cur ds c as sig is fr c' xs hR hxs
    have hi := hR.here _ List.mem_cons_self
    have hkeep : keep (.call ds c as sig) = true := by
      by_contra hk
      cases hquiet _ hi (by simpa using hk)
    have hrest := hR.rest
    rw [List.filter_cons_of_pos hkeep] at hrest
    refine ⟨is.filter keep, c'.frame, ?_, ?_,
      fun rs _ => ⟨hR.block, rfl, ?_, fun v hv => ?_⟩⟩
    · rw [← hrest]
    · rw [← hxs]
      exact (mapM_look_congr (hi.agree hR.agree)).symm
    · exact fun j hj => hR.here j (List.mem_cons_of_mem _ hj)
    · exact getElem?_insertAll_congr fun _ => hR.agree v hv
  -- terminators are kept with all they read
  jump := by
    intro cur b next nb fr c' ps _ hR hb hterm hthere hnb hbody hps
    obtain ⟨cb, crest, cfr⟩ := c'
    obtain rfl : cb = cur := hR.block
    obtain rfl : crest = [] := hR.rest
    obtain ⟨ps', hps', hkept⟩ := Kept.entered hdrop hnb hbody hR.agree hps
    refine ⟨_, hkept, fun w n vs w' hn => ⟨n + 1, le_refl _, ?_⟩⟩
    have hterm' : nextOf cfr (keptBlock keep b).term = some (.block next) :=
      (nextOf_of_reads hb hR.agree).trans hterm
    exact .jump hnew (block?_keepInstrs_of hb) trivial hterm' hthere
      (block?_keepInstrs_of hnb) hps' hn
  ret := by
    intro cur b fr c' vs _ hR hb hterm w
    obtain ⟨cb, crest, cfr⟩ := c'
    obtain rfl : cb = cur := hR.block
    obtain rfl : crest = [] := hR.rest
    exact .ret hnew (block?_keepInstrs_of hb)
      ((nextOf_of_reads hb hR.agree).trans hterm)
  leave := by
    intro cur b fr c' _ hR hb hterm w
    obtain ⟨cb, crest, cfr⟩ := c'
    obtain rfl : cb = cur := hR.block
    obtain rfl : crest = [] := hR.rest
    exact .leave hnew (block?_keepInstrs_of hb)
      ((nextOf_of_reads hb hR.agree).trans hterm)

end Func

end MirBackend
