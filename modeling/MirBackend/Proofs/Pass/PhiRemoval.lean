/-
The structure of a function that leaves single-assignment form.

Isolation splits edges; placing copies puts assignments behind the
instructions of blocks and takes fresh value numbers; removing the phis keeps
the other instructions. So structure and distinct predecessors are kept and no
phi is left (`run_wellFormed`).
-/
import Mathlib
import MirBackend.Proofs.Pass.Isolation

namespace MirBackend

-- ================================================================== copies

namespace ParallelCopy

/-- A function with fresh value numbers taken: nothing but the counter and the
recorded types differs. -/
structure Drawn (f g : Func) : Prop where
  name : g.name = f.name
  blocks : g.blocks = f.blocks
  entry : g.entry = f.entry
  params : g.params = f.params

/-- Putting copies in order only takes fresh values. -/
theorem Sequencing.run_drawn (fuel : Nat) (o : Sequencing) :
    Drawn o.func (o.run fuel).2 := by
  induction fuel generalizing o with
  | zero => exact ⟨rfl, rfl, rfl, rfl⟩
  | succ fuel ih =>
      rw [Sequencing.run]
      split
      · next c ready _ =>
        have hfunc : (o.emit c ready).func = o.func := by
          unfold emit
          dsimp only
          split
          · rfl
          · split
            · split <;> rfl
            · rfl
        exact hfunc ▸ ih (o.emit c ready)
      · split
        · exact ⟨rfl, rfl, rfl, rfl⟩
        · next c _ =>
          obtain ⟨hn, hb, he, hp⟩ := ih (o.breakCycle c)
          exact ⟨hn, hb, he, hp⟩

/-- Sequentializing draws values and changes nothing else. -/
theorem sequentialize_drawn (f : Func) (cs : List Copy) :
    Drawn f (sequentialize f cs).2 :=
  Sequencing.run_drawn _ (Sequencing.start f cs)

/-- Blocks are as they were. -/
theorem Drawn.block? {f g : Func} (h : Drawn f g) (b : BlockId) :
    g.block? b = f.block? b := by
  cases b with
  | ofNat i => simp only [Func.block?, h.blocks]
  | negSucc i => rfl

end ParallelCopy

namespace PhiRemoval

open Func ParallelCopy

variable {f : Func}

/-- Placing the copies of one block leaves the edges. -/
theorem placeCopies_reshaped
    (all : List (BlockId × ValueId × Operand × Ty)) (f : Func) (b : BlockId) :
    f.Reshaped (placeCopies all f b) := by
  unfold placeCopies
  split
  · exact .refl f
  · next cs _ =>
    have hdrawn := sequentialize_drawn f (copiesInto all b)
    refine ⟨?_, ?_, fun c => ?_⟩
    · rw [length_modifyBlock, hdrawn.blocks]
    · rw [entry_modifyBlock, hdrawn.entry]
    · rw [block?_modifyBlock, hdrawn.block?]
      cases f.block? c with
      | none => split <;> exact .none
      | some blk =>
          split
          · refine .some ⟨fun h => h, fun _ => Iff.rfl,
              fun _ => Iff.rfl, fun h => h,
              fun i hi => ?_, fun h => h.append fun i hi => ?_⟩
            · rcases List.mem_append.mp hi with hi | hi
              · exact Or.inl hi
              · obtain ⟨c, -, rfl⟩ := List.mem_map.mp hi
                exact Or.inr ⟨rfl, rfl⟩
            · obtain ⟨c, -, rfl⟩ := List.mem_map.mp hi
              rfl
          · exact .some ⟨fun h => h, fun _ => Iff.rfl,
              fun _ => Iff.rfl, fun h => h, fun _ hi => Or.inl hi, fun h => h⟩

/-- Placing the copies of several blocks leaves the edges. -/
theorem placeAll_reshaped (all : List (BlockId × ValueId × Operand × Ty))
    (bs : List BlockId) (f : Func) :
    f.Reshaped (bs.foldl (placeCopies all) f) := by
  induction bs generalizing f with
  | nil => exact .refl f
  | cons b bs ih => exact (placeCopies_reshaped all f b).trans (ih _)

/-- What stays when phis are removed. -/
def keepsRest (i : Instr) : Bool := !i.isPhi && !i.isNop

/-- What the pass does: nothing to a function without phis; otherwise it
isolates the phis, places their copies and drops them. -/
theorem run_eq (h : f.WellFormed) {P : Func → Prop}
    (hP : CriticalStable P) (hf : P f) :
    (run f = .ok (false, f) ∧ ∀ i, f.HasInstr i → i.isPhi = false)
    ∨ ∃ (k : Func) (bs : List Block), P k ∧ k.Linked ∧ (∀ b, Isolated k b)
        ∧ k.blocks = bs.map some
        ∧ run f = .ok (true, (((List.range k.blocks.length).map Int.ofNat).foldl
          (placeCopies (bs.flatMap phiCopies)) k).keepInstrs keepsRest) := by
  obtain ⟨n, hn, hzero⟩ := phiTotal_spec h
  rw [run, hn, given_ok, ok_bind]
  by_cases h0 : n = 0
  · exact Or.inl ⟨by rw [if_pos h0]; rfl, hzero.mp h0⟩
  · obtain ⟨k, hk, hPk, hlink, hiso⟩ := isolateAll_spec hP hf h.linked
    obtain ⟨bs, hbs, hblocks⟩ := hlink.present
    refine Or.inr ⟨k, bs, hPk, hlink, hiso, hblocks, ?_⟩
    rw [if_neg h0, hk, ok_bind, hbs, given_ok, ok_bind]
    rfl

/-- The pass answers; what it leaves is sound in structure and has no phis. -/
theorem run_wellFormed (h : f.WellFormed) (hd : f.PredsDistinct) :
    ∃ m g, run f = .ok (m, g) ∧ g.WellFormed ∧ g.PredsDistinct
      ∧ ∀ i, g.HasInstr i → i.isPhi = false := by
  have hstable : SplitStable fun f => f.WellFormed ∧ f.PredsDistinct :=
    fun f g s t ⟨hwf, hpd⟩ _ he hg => hg.wellFormed hwf hpd he
  rcases run_eq h hstable.critical ⟨h, hd⟩ with ⟨hrun, hphi⟩
    | ⟨k, bs, ⟨hwf, hpd⟩, -, -, -, hrun⟩
  · exact ⟨false, f, hrun, h, hd, hphi⟩
  · have hre := (placeAll_reshaped (bs.flatMap phiCopies)
      ((List.range k.blocks.length).map Int.ofNat) k).trans
      (reshaped_keepInstrs _ keepsRest)
    refine ⟨true, _, hrun, hre.wellFormed hwf,
      hre.predsDistinct hpd, fun i hi => ?_⟩
    have hk := (hasInstr_keepInstrs.mp hi).2
    rw [keepsRest, Bool.and_eq_true, Bool.not_eq_true'] at hk
    exact hk.1

end PhiRemoval

end MirBackend
