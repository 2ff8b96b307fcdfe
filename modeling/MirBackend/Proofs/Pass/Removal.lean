/-
Removing instructions whose results nobody reads.

Both cleanups drop instructions in steps, and no step drops an instruction of
which a result is read (`Trimmed`). So whatever one such step keeps, the
cleanups keep; structure and distinct predecessors are the first instance.

The removal of dead instructions goes on until nothing is left to drop
(`removeDead_spec`): each round but the last shortens the function, and there
are more rounds than instructions.
-/
import Mathlib
import MirBackend.Pass.FrameCleanup
import MirBackend.Proofs.Func.Paths

namespace MirBackend

namespace Func

variable {f g : Func} {keep : Instr → Bool}

-- ========================================================== unread results

/-- No result of an instruction that the test rejects is read. -/
def DropsUnread (f : Func) (keep : Instr → Bool) : Prop :=
  ∀ i, f.HasInstr i → keep i = false → ∀ d ∈ i.dests, ¬ f.Reads d

/-- `g` comes from `f` by dropping instructions with unread results, in
steps. -/
inductive Trimmed (f : Func) : Func → Prop where
  | refl : Trimmed f f
  | step {g : Func} (trimmed : Trimmed f g) (keep : Instr →
      Bool) (unread : g.DropsUnread keep) :
      Trimmed f (g.keepInstrs keep)

/-- Trimming twice is trimming. -/
theorem Trimmed.trans {h : Func} (hg : f.Trimmed g)
    (hh : g.Trimmed h) : f.Trimmed h := by
  induction hh with
  | refl => exact hg
  | step _ keep hunread ih => exact ih.step keep hunread

/-- Dropping instructions leaves the edges. -/
theorem Trimmed.reachable_iff (ht : f.Trimmed g) {b : BlockId} :
    g.Reachable b ↔ f.Reachable b := by
  induction ht with
  | refl => exact Iff.rfl
  | step _ keep _ ih =>
    exact (reshaped_keepInstrs _ keep).reachable_iff.trans ih

/-- No block is taken out by trimming. -/
theorem Trimmed.length_eq (ht : f.Trimmed g) :
    g.blocks.length = f.blocks.length := by
  induction ht with
  | refl => rfl
  | step _ keep _ ih => exact (length_keepInstrs _ keep).trans ih

/-- A trimmed function is well-formed. -/
theorem Trimmed.wellFormed (ht : f.Trimmed g) (h : f.WellFormed) :
    g.WellFormed := by
  induction ht with
  | refl => exact h
  | step _ keep _ ih => exact (reshaped_keepInstrs _ keep).wellFormed ih

/-- Predecessors that were distinct are. -/
theorem Trimmed.predsDistinct (ht : f.Trimmed g) (h : f.PredsDistinct) :
    g.PredsDistinct := by
  induction ht with
  | refl => exact h
  | step _ keep _ ih => exact (reshaped_keepInstrs _ keep).predsDistinct ih

/-- What is left stood there before. -/
theorem Trimmed.hasInstr (ht : f.Trimmed g) {i : Instr} (hi : g.HasInstr i) :
    f.HasInstr i := by
  induction ht with
  | refl => exact hi
  | step _ keep _ ih => exact ih (hasInstr_keepInstrs.mp hi).1

-- ============================================================ instructions

/-- How many instructions stand in the blocks that are there. -/
def instrSum (os : List (Option Block)) : Nat :=
  (os.map fun o => o.elim 0 (·.instrs.length)).sum

/-- The instructions are counted block by block. -/
theorem instrCount_eq_sum (h : f.WellFormed) :
    f.instrCount = .ok (instrSum f.blocks) := by
  obtain ⟨bs, hbs, hblocks⟩ := h.present
  rw [instrCount, hbs, hblocks, instrSum, List.map_map]
  rfl

/-- Dropping something leaves fewer instructions. -/
theorem instrSum_keepInstrs_lt (h : f.anyDropped keep = true) :
    instrSum (f.keepInstrs keep).blocks < instrSum f.blocks := by
  have hle (is : List Instr) : (is.filter keep).length ≤ is.length :=
    List.length_filter_le keep is
  have hall (os : List (Option Block)) :
      instrSum (os.map (·.map (keptBlock keep))) ≤ instrSum os := by
    induction os with
    | nil => exact Nat.le_refl _
    | cons o os ih =>
        simp only [instrSum, List.map_cons, List.sum_cons] at ih ⊢
        refine Nat.add_le_add ?_ ih
        cases o with
        | none => exact Nat.le_refl _
        | some b => exact hle b.instrs
  rw [show (f.keepInstrs keep).blocks = f.blocks.map (·.map (keptBlock keep))
    from rfl]
  unfold anyDropped at h
  generalize f.blocks = os at h
  induction os with
  | nil => cases h
  | cons o os ih =>
      have hos := hall os
      rw [List.any_cons, Bool.or_eq_true] at h
      simp only [instrSum, List.map_cons, List.sum_cons] at ih hos ⊢
      rcases h with h | h
      · cases o with
        | none => cases h
        | some b =>
            have hlt : (b.instrs.filter keep).length < b.instrs.length := by
              rw [List.length_filter_lt_length_iff_exists]
              simpa using h
            exact Nat.add_lt_add_of_lt_of_le hlt hos
      · refine Nat.add_lt_add_of_le_of_lt ?_ (ih h)
        cases o with
        | none => exact Nat.le_refl _
        | some b => exact hle b.instrs

end Func

-- ===================================================== dead instructions

namespace DeadCode

variable {f g : Func}

/-- Nothing is left that could be removed: every instruction has an effect, or a
result of it is read. -/
def Tidy (f : Func) : Prop :=
  ∀ i, f.HasInstr i → i.isNop = false
    ∧ (i.hasSideEffects = true ∨ ∃ d ∈ i.dests, f.Reads d)

/-- What stays, in terms of the values read. -/
theorem isLive_iff {rs : List ValueId}
    (hrs : ∀ v, v ∈ rs ↔ f.Reads v) {i : Instr} :
    isLive (Std.ExtTreeSet.ofList rs) i = true
      ↔ i.isNop = false ∧ (i.hasSideEffects = true
        ∨ ∃ d ∈ i.dests, f.Reads d) := by
  unfold isLive
  rw [Bool.and_eq_true, Bool.not_eq_true', Bool.or_eq_true, List.any_eq_true]
  refine and_congr Iff.rfl (or_congr Iff.rfl ?_)
  refine exists_congr fun d => and_congr Iff.rfl ?_
  rw [Std.ExtTreeSet.contains_ofList, List.contains_iff_mem, hrs]

/-- The rounds end with nothing left to remove. -/
theorem removeDeadLoop_spec (fuel : Nat) (modified : Bool) (h : f.WellFormed)
    (hfuel : Func.instrSum f.blocks < fuel) :
    ∃ m g, removeDeadLoop fuel modified f = .ok (m, g)
        ∧ f.Trimmed g ∧ Tidy g := by
  induction fuel generalizing modified f with
  | zero => omega
  | succ fuel ih =>
      obtain ⟨rs, hrs, hmem⟩ := Func.reads_spec h
      rw [removeDeadLoop, hrs, given_ok, ok_bind]
      dsimp only
      cases hd : f.anyDropped (isLive (Std.ExtTreeSet.ofList rs)) with
      | false =>
          refine ⟨modified, f, rfl, .refl, fun i hi => ?_⟩
          exact (isLive_iff hmem).mp
            ((Func.anyDropped_eq_false h.full).mp hd i hi)
      | true =>
          have hlt := Nat.lt_of_lt_of_le (Func.instrSum_keepInstrs_lt hd)
            (Nat.le_of_lt_succ hfuel)
          obtain ⟨m, g, hg, htrim, htidy⟩ :=
            ih true ((Func.reshaped_keepInstrs f _).wellFormed h) hlt
          refine ⟨m, g, hg, Func.Trimmed.trans (.step .refl _ ?_) htrim, htidy⟩
          -- what is dropped is not live, so it has no result that is read
          intro i _ hi d hd hread
          rw [← Bool.not_eq_true, isLive_iff hmem] at hi
          refine hi ⟨?_, Or.inr ⟨d, hd, hread⟩⟩
          cases i with
          | nop => cases hd
          | _ => rfl

/-- Removing dead instructions drops only what nobody reads, and leaves none. -/
theorem removeDead_spec (h : f.WellFormed) :
    ∃ m g, removeDead f = .ok (m, g) ∧ f.Trimmed g ∧ Tidy g := by
  rw [removeDead, Func.instrCount_eq_sum h, given_ok, ok_bind]
  exact removeDeadLoop_spec _ false h (Nat.lt_succ_self _)

end DeadCode

-- ============================================================ frame memory

namespace FrameCleanup

variable {f : Func}

-- Each filter drops what is not read only.
theorem keepsValue_unread {rs : List ValueId} (hrs : ∀ v, v ∈ rs ↔ f.Reads v) :
    f.DropsUnread (keepsValue rs) := by
  intro i _ hk d hd hread
  have hnot : ∀ e, rs.contains e = false → d = e → False := by
    rintro e he rfl
    rw [← Bool.not_eq_true, List.contains_iff_mem, hrs] at he
    exact he hread
  cases i with
  | binary | unary | assign | load => exact hnot _ hk (List.mem_singleton.mp hd)
  | _ => cases hk

theorem keepsStore_unread (dead : List ValueId) :
    f.DropsUnread (keepsStore dead) := by
  intro i _ hk d hd
  cases i with
  | store => cases hd
  | _ => cases hk

theorem keepsAlloc_unread {rs : List ValueId} (hrs : ∀ v, v ∈ rs ↔ f.Reads v) :
    f.DropsUnread (keepsAlloc rs) := by
  intro i _ hk d hd hread
  cases i with
  | frameAlloc e t =>
      have hk : rs.contains e = false := hk
      rw [List.mem_singleton.mp hd, ← hrs, ← List.contains_iff_mem, hk] at hread
      cases hread
  | _ => cases hk

/-- What memory is unread can be told of every well-formed function. -/
theorem unreadMemory_eq_ok (h : f.WellFormed) :
    ∃ vs, unreadMemory f = .ok vs := by
  obtain ⟨bs, hbs, -⟩ := h.present
  obtain ⟨rs, hrs, -⟩ := Func.reads_spec h
  rw [unreadMemory, hrs, escaping, exposed, allocations, hbs]
  exact ⟨_, rfl⟩

/-- The cleanup answers and drops only what nobody reads. -/
theorem run_spec (h : f.WellFormed) : ∃ m g, run f = .ok (m, g)
    ∧ f.Trimmed g := by
  obtain ⟨rs₁, hrs₁, hmem₁⟩ := Func.reads_spec h
  have h₁ := (f.reshaped_keepInstrs (keepsValue rs₁)).wellFormed h
  obtain ⟨dead, hdead⟩ := unreadMemory_eq_ok h₁
  have h₂ := (Func.reshaped_keepInstrs _ (keepsStore dead)).wellFormed h₁
  obtain ⟨rs₂, hrs₂, hmem₂⟩ := Func.reads_spec h₂
  have hrun : ∃ m, run f = .ok (m, ((f.keepInstrs (keepsValue rs₁)).keepInstrs
      (keepsStore dead)).keepInstrs (keepsAlloc rs₂)) := by
    simp only [run, dropBy, hrs₁, given_ok, ok_bind, hdead, hrs₂]
    exact ⟨_, rfl⟩
  obtain ⟨m, hm⟩ := hrun
  refine ⟨m, _, hm, ?_⟩
  exact ((Func.Trimmed.refl.step _ (keepsValue_unread hmem₁)).step _
    (keepsStore_unread dead)).step _ (keepsAlloc_unread hmem₂)

end FrameCleanup

end MirBackend
