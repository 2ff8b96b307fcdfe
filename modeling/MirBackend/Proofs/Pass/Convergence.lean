/-
Cleanup comes to an end.

Blocks and instructions together are the weight of a function. Each cleanup
either leaves the function as it is and says so, or it says that it changed
something and then the function has become lighter (`Descends`): a fusion takes
an instruction out of a block, a removal takes an instruction or a whole block.
None of them makes the function heavier, whatever chances it opens for the
others, so rounds of them cannot go on for longer than there is weight to lose
(`settles_of_measure`).

Leaving single-assignment form does add weight, and is told apart: it says that
it changed something exactly where there were phis, and it leaves none.
-/
import Mathlib
import MirBackend.Pass.Schedule
import MirBackend.Proofs.Pass.BranchFusion
import MirBackend.Proofs.Pass.DeadCodeShape
import MirBackend.Proofs.Pass.PhiRemoval

namespace MirBackend

-- ================================================================== weight

namespace Func

variable {f g h : Func} {a b : Bool}

/-- How much stands in a function: its blocks and their instructions. -/
def weight (f : Func) : Nat := f.blocks.length + instrSum f.blocks

/-- What a flag says of a change that can only make a function lighter: without
the flag nothing happened, with it the function has lost weight. -/
structure Descends (f g : Func) (modified : Bool) : Prop where
  same : modified = false → g = f
  lighter : modified = true → g.weight < f.weight

namespace Descends

/-- Nothing was changed, and nothing is said to be. -/
theorem refl (f : Func) : f.Descends f false :=
  ⟨fun _ => rfl, fun h => by cases h⟩

/-- Of two passes one has changed something if either has. -/
theorem trans (hg : f.Descends g a) (hh : g.Descends h b) :
    f.Descends h (a || b) := by
  cases a with
  | false =>
      rw [hg.same rfl] at hh
      exact hh
  | true =>
      refine ⟨fun h => (by cases h), fun _ => ?_⟩
      have hlt := hg.lighter rfl
      cases b with
      | false =>
          rw [hh.same rfl]
          exact hlt
      | true => exact (hh.lighter rfl).trans hlt

/-- The flag is honest: it is unset exactly when nothing changed. -/
theorem modified_eq_false_iff (hg : f.Descends g a) : a = false ↔ g = f := by
  refine ⟨hg.same, ?_⟩
  rintro rfl
  cases a with
  | false => rfl
  | true => exact absurd (hg.lighter rfl) (Nat.lt_irrefl _)

end Descends

/-- How many instructions a block has, none if it is not there. -/
def sizeAt (f : Func) (c : BlockId) : Nat :=
  (f.block? c).elim 0 (·.instrs.length)

/-- Instructions, counted by looking the blocks up. -/
theorem instrSum_eq_range (f : Func) : instrSum f.blocks
    = ((List.range f.blocks.length).map fun i : Nat =>
      f.sizeAt (i : Int)).sum := by
  conv_lhs => rw [blocks_eq_range f]
  rw [instrSum, List.map_map]
  rfl

/-- If no block gains and one loses, there are fewer instructions. -/
theorem instrSum_lt (hlen : g.blocks.length = f.blocks.length)
    (hle : ∀ c, g.sizeAt c ≤ f.sizeAt c) {c : BlockId}
    (hc : f.hasBlock c = true) (hlt : g.sizeAt c < f.sizeAt c) :
    instrSum g.blocks < instrSum f.blocks := by
  obtain ⟨i, rfl, hi⟩ := hasBlock_iff.mp hc
  rw [instrSum_eq_range, instrSum_eq_range, hlen]
  exact List.sum_lt_sum _ _ (fun j _ => hle j) ⟨i, List.mem_range.mpr hi, hlt⟩

/-- Where nothing would be dropped, nothing is. -/
theorem keepInstrs_of_anyDropped {keep : Instr → Bool}
    (hnone : f.anyDropped keep = false) : f.keepInstrs keep = f := by
  have hblocks : f.blocks.map (Option.map (keptBlock keep)) = f.blocks := by
    refine (List.map_congr_left fun o ho => ?_).trans f.blocks.map_id'
    cases o with
    | none => rfl
    | some blk =>
        have hkeep := List.any_eq_false.mp hnone _ ho
        rw [Option.any_some, List.any_eq_true] at hkeep
        have hall : ∀ i ∈ blk.instrs, keep i = true := by simpa using hkeep
        rw [Option.map_some, keptBlock, List.filter_eq_self.mpr hall]
  exact congrArg (fun bs => { f with blocks := bs }) hblocks

/-- Dropping instructions, with the test whether any goes as the flag. -/
theorem descends_keepInstrs (f : Func) (keep : Instr → Bool) :
    f.Descends (f.keepInstrs keep) (f.anyDropped keep) := by
  refine ⟨keepInstrs_of_anyDropped, fun hdrop => ?_⟩
  rw [weight, weight, length_keepInstrs]
  exact Nat.add_lt_add_left (instrSum_keepInstrs_lt hdrop) _

end Func

-- ============================================================ dead code

namespace DeadCode

open Func

variable {f g : Func} {r : Renumbering} {left : List Nat} {m : Bool}

/-- Compaction adds no instruction. -/
theorem CompactOf.instrSum_le (h : CompactOf f g r) :
    instrSum g.blocks ≤ instrSum f.blocks := by
  obtain ⟨bs, hf, hg⟩ := h.blocks
  have hsize (os : List (Option Block)) : instrSum os
      = ((os.map (·.map Block.instrs)).map fun o =>
      o.elim 0 List.length).sum := by
    rw [instrSum, List.map_map]
    congr 1
    refine List.map_congr_left fun o _ => ?_
    cases o <;> rfl
  have hall : instrSum f.blocks
      = (bs.zipIdx.map fun x => x.1.instrs.length).sum := by
    have hfst : bs.zipIdx.map (fun x => x.1.instrs.length)
        = (bs.zipIdx.map Prod.fst).map fun b => b.instrs.length := by
      rw [List.map_map]
      rfl
    rw [hfst, List.zipIdx_map_fst, hf, instrSum, List.map_map]
    rfl
  have hkept : instrSum g.blocks
      = ((bs.zipIdx.filter fun x => r.kept.contains x.2).map fun x =>
      x.1.instrs.length).sum := by
    rw [hsize, hg, List.map_map]
    congr 1
    refine List.map_congr_left fun x _ => ?_
    exact List.length_map _
  rw [hall, hkept]
  exact (List.filter_sublist.map _).sum_le_sum fun _ _ => Nat.zero_le _

/-- A block out of reach is missing from what is left. -/
theorem Leaves.length_lt (h : Leaves f g left) (hwf : f.WellFormed)
    (hnot : ¬ AllReachable f) : g.blocks.length < f.blocks.length := by
  obtain ⟨b, hb⟩ := not_forall.mp hnot
  obtain ⟨hhere, hreach⟩ := Classical.not_imp.mp hb
  obtain ⟨i, rfl, hi⟩ := hasBlock_iff.mp hhere
  have hnodup : (i :: left).Nodup :=
    List.nodup_cons.mpr ⟨fun hmem => hreach ((h.reached i).mp hmem),
      h.ascending.imp Nat.ne_of_lt⟩
  have hsub : (i :: left) ⊆ List.range f.blocks.length := by
    intro j hj
    rw [List.mem_range]
    rcases List.mem_cons.mp hj with rfl | hj
    · exact hi
    · obtain ⟨blk, hblk⟩ := hwf.block?_of_reachable ((h.reached j).mp hj)
      obtain ⟨k, hk, hlt⟩ := hasBlock_iff.mp (hasBlock_of_block? hblk)
      rwa [Nat.cast_inj.mp hk]
  have hle := (List.subperm_of_subset hnodup hsub).length_le
  rw [List.length_cons, List.length_range, ← h.length] at hle
  exact hle

/-- Removing unreachable blocks, with its flag. -/
theorem removeUnreachable_descends (h : f.WellFormed)
    (hrun : removeUnreachable f = .ok (m, g)) : f.Descends g m := by
  by_cases hall : AllReachable f
  · rw [removeUnreachable_eq_self h hall] at hrun
    cases hrun
    exact .refl f
  · obtain ⟨m', g', hrun', hcases⟩ := removeUnreachable_spec h
    rw [hrun] at hrun'
    cases hrun'
    rcases hcases with ⟨-, hreach⟩ | ⟨r, hr⟩
    · exact absurd hreach hall
    · have hlen :=
        (hr.leaves h (removeUnreachable_header hrun)).length_lt h hall
      have hlt : g.weight < f.weight :=
        Nat.add_lt_add_of_lt_of_le hlen hr.instrSum_le
      refine ⟨fun hm => ?_, fun _ => hlt⟩
      -- without the flag it returns early, with what it was given
      subst hm
      simp only [removeUnreachable] at hrun
      obtain ⟨reach, -, hrun⟩ := bind_eq_ok.mp hrun
      split at hrun
      · cases hrun
      · split at hrun
        · cases hrun
          rfl
        · obtain ⟨_, -, hrun⟩ := bind_eq_ok.mp hrun
          obtain ⟨_, -, hrun⟩ := bind_eq_ok.mp hrun
          obtain ⟨_, -, hrun⟩ := bind_eq_ok.mp hrun
          cases hrun

/-- Rounds of removal, with the flag that earlier rounds have set. -/
theorem removeDeadLoop_descends {fuel : Nat} {f₀ : Func} {done : Bool}
    (h : f₀.Descends f done) (hrun : removeDeadLoop fuel done f = .ok (m, g)) :
    f₀.Descends g m := by
  induction fuel generalizing done f with
  | zero =>
      cases hrun
      exact h
  | succ fuel ih =>
      rw [removeDeadLoop] at hrun
      obtain ⟨rs, -, hrun⟩ := bind_eq_ok.mp hrun
      dsimp only at hrun
      cases hdrop : f.anyDropped (isLive (Std.ExtTreeSet.ofList rs)) with
      | false =>
          rw [hdrop] at hrun
          cases hrun
          exact h
      | true =>
          rw [hdrop] at hrun
          refine ih ?_ hrun
          have hstep :=
            h.trans (f.descends_keepInstrs (isLive (Std.ExtTreeSet.ofList rs)))
          rwa [hdrop, Bool.or_true] at hstep

/-- The removal of dead code answers on a sound function, and its flag is
honest. -/
theorem run_descends (h : f.WellFormed) :
    ∃ m g, run f = .ok (m, g) ∧ g.WellFormed ∧ f.Descends g m := by
  obtain ⟨m, k, g, hrun, -, hkwf, -, htrim, -⟩ := run_spec h
  refine ⟨m, g, hrun, htrim.wellFormed hkwf, ?_⟩
  unfold run at hrun
  obtain ⟨_, -, hrun⟩ := bind_eq_ok.mp hrun
  obtain ⟨⟨m₁, k₁⟩, hk, hrun⟩ := bind_eq_ok.mp hrun
  obtain ⟨⟨m₂, g₂⟩, hg, hrun⟩ := bind_eq_ok.mp hrun
  cases hrun
  refine (removeUnreachable_descends h hk).trans ?_
  obtain ⟨_, -, hg⟩ := bind_eq_ok.mp hg
  exact removeDeadLoop_descends (.refl _) hg

end DeadCode

-- =============================================================== fusion

namespace BranchFusion

open Func

variable {f : Func}

/-- A fused block has lost an instruction. -/
theorem length_fusion {reads : List ValueId} {blk : Block}
    {is : List Instr} {tm : Terminator} (h : fusion reads blk = some (is, tm)) :
    is.length < blk.instrs.length := by
  unfold fusion at h
  split at h
  case h_2 => cases h
  case h_1 c t e hterm =>
    split at h
    case isFalse => cases h
    case isTrue =>
      split at h
      case h_1 => cases h
      case h_2 before d after hsplit =>
        split at h
        case isTrue => cases h
        case isFalse =>
          obtain ⟨tm', -, heq⟩ := Option.map_eq_some_iff.mp h
          cases heq
          rw [splitAtLastDef_eq_some hsplit, List.length_append,
            List.length_append, List.length_cons]
          omega

/-- One block, with the flag that earlier blocks have set. -/
theorem fuseBlock_descends {f₀ g : Func} {reads : List ValueId}
    {done m : Bool} {b : BlockId} (hwf : f.WellFormed) (h : f₀.Descends f done)
    (hrun : fuseBlock reads (done, f) b = .ok (m, g)) : f₀.Descends g m := by
  unfold fuseBlock at hrun
  obtain ⟨blk, hblk, hrun⟩ := bind_eq_ok.mp hrun
  rw [given_eq_ok, block_eq_ok] at hblk
  cases hfusion : fusion reads blk with
  | none =>
      rw [hfusion] at hrun
      cases hrun
      exact h
  | some x =>
      obtain ⟨is, tm⟩ := x
      obtain ⟨g', hg', -, hlen, hblock⟩ :=
        setTerm_fusedBlock hwf is hblk (fusion_spec hfusion).2
      rw [hfusion] at hrun
      dsimp only at hrun
      rw [hg'] at hrun
      cases hrun
      have hhere : g.sizeAt b < f.sizeAt b := by
        rw [sizeAt, sizeAt, hblock, hblk, Option.map_some,
          fusedBlock, if_pos rfl]
        exact length_fusion hfusion
      have hall (c : BlockId) : g.sizeAt c ≤ f.sizeAt c := by
        by_cases hcb : c = b
        · rw [hcb]
          exact hhere.le
        · rw [sizeAt, sizeAt, hblock]
          cases f.block? c with
          | none => exact Nat.le_refl _
          | some cb =>
              rw [Option.map_some, fusedBlock, if_neg hcb]
              exact Nat.le_refl _
      have hlt : f.Descends g true := by
        refine ⟨fun hm => (by cases hm), fun _ => ?_⟩
        rw [weight, weight, hlen]
        exact Nat.add_lt_add_left
          (instrSum_lt hlen hall (hasBlock_of_block? hblk) hhere) _
      have hboth := h.trans hlt
      rwa [Bool.or_true] at hboth

/-- Folding tests into branches answers on a sound function, and its flag is
honest. -/
theorem run_descends (h : f.WellFormed) :
    ∃ m g, run f = .ok (m, g) ∧ g.WellFormed ∧ f.Descends g m := by
  obtain ⟨rs, hrs, -⟩ := reads_spec h
  have hstep : ∀ x : Bool × Func,
      (x.2.WellFormed ∧ x.2.blocks.length = f.blocks.length
      ∧ f.Descends x.2 x.1) → ∀ b ∈ (List.range f.blocks.length).map Int.ofNat,
      ∃ y, fuseBlock rs x b = .ok y ∧ y.2.WellFormed
        ∧ y.2.blocks.length = f.blocks.length
        ∧ f.Descends y.2 y.1 := by
    rintro ⟨done, k⟩ ⟨hwf, hlen, hdesc⟩ b hb
    obtain ⟨j, hj, rfl⟩ := List.mem_map.mp hb
    have hhere : k.hasBlock (Int.ofNat j) = true :=
      hasBlock_iff.mpr ⟨j, rfl, by rw [hlen]; exact List.mem_range.mp hj⟩
    obtain ⟨m, g, hg, hre, -⟩ := fuseBlock_reshaped hwf rs done hhere
    exact ⟨(m, g), hg, hre.wellFormed hwf, hre.length.trans hlen,
      fuseBlock_descends hwf hdesc hg⟩
  obtain ⟨⟨m, g⟩, hg, hwf, -, hdesc⟩ :=
    foldlM_invariant hstep (s := (false, f)) ⟨h, rfl, .refl f⟩
  refine ⟨m, g, ?_, hwf, hdesc⟩
  rw [run, hrs, given_ok, ok_bind]
  exact hg

end BranchFusion

-- ============================================================ frame memory

namespace FrameCleanup

/-- The first cleanup answers on a sound function, and its flag is honest. -/
theorem run_descends {f : Func} (h : f.WellFormed) :
    ∃ m g, run f = .ok (m, g) ∧ g.WellFormed ∧ f.Descends g m := by
  obtain ⟨m, g, hrun, htrim⟩ := run_spec h
  refine ⟨m, g, hrun, htrim.wellFormed h, ?_⟩
  unfold run dropBy at hrun
  obtain ⟨values, -, hrun⟩ := bind_eq_ok.mp hrun
  obtain ⟨dead, -, hrun⟩ := bind_eq_ok.mp hrun
  obtain ⟨addresses, -, hrun⟩ := bind_eq_ok.mp hrun
  cases hrun
  exact ((f.descends_keepInstrs _).trans (Func.descends_keepInstrs _ _)).trans
    (Func.descends_keepInstrs _ _)

end FrameCleanup

-- ==================================================================== phis

namespace PhiRemoval

open Func

/-- Leaving single-assignment form answers on a sound function, and its flag is
honest: what has changed has no phi any more, and had one before. -/
theorem run_modified {f : Func} (h : f.WellFormed) :
    ∃ m g, run f = .ok (m, g) ∧ (m = false ↔ g = f) := by
  have hany : CriticalStable fun _ => True := fun _ _ _ _ _ _ _ _ => trivial
  rcases run_eq h hany trivial with ⟨hrun, -⟩ | ⟨k, bs, -, -, -, -, hrun⟩
  · exact ⟨false, f, hrun, fun _ => rfl, fun _ => rfl⟩
  · refine ⟨true, _, hrun, fun hm => (by cases hm), fun heq => ?_⟩
    -- a function that the pass gives back has no phis, and then the pass does
    -- nothing
    have hnone : ∀ i, f.HasInstr i → i.isPhi = false := by
      intro i hi
      rw [← heq, hasInstr_keepInstrs, keepsRest, Bool.and_eq_true,
        Bool.not_eq_true'] at hi
      exact hi.2.1
    obtain ⟨n, hn, hzero⟩ := phiTotal_spec h
    rw [PhiRemoval.run, hn, given_ok, ok_bind, if_pos (hzero.mpr hnone)] at hrun
    cases hrun

end PhiRemoval

-- ================================================================== rounds

namespace Pass

variable {body : Func → Changing Func (Outcome Func)} {f g : Func} {n : Nat}

/-- Rounds of `body` from one function to another, the last of which reports no
change; with how many there are. -/
inductive Settles (body : Func → Changing Func (Outcome Func)) :
    Nat → Func → Func → Prop where
  | still {f : Func} (quiet : body f = .ok ⟨f, false, none⟩) :
      Settles body 1 f f
  | round {n : Nat} {f g k : Func} (change : body f = .ok ⟨g, true, none⟩)
      (rest : Settles body n g k) : Settles body (n + 1) f k

/-- Where rounds settle, a further one changes nothing. -/
theorem Settles.quiet (h : Settles body n f g) :
    body g = .ok ⟨g, false, none⟩ := by
  induction h with
  | still quiet => exact quiet
  | round _ _ ih => exact ih

/-- At least one round is needed to see that there is nothing to do. -/
theorem Settles.pos (h : Settles body n f g) : 0 < n := by
  cases h <;> omega

/-- Rounds settle in one way only. -/
theorem Settles.unique {n' : Nat} {g' : Func} (h : Settles body n f g)
    (h' : Settles body n' f g') : n = n' ∧ g = g' := by
  induction h generalizing n' with
  | still quiet =>
      cases h' with
      | still => exact ⟨rfl, rfl⟩
      | round change => cases quiet.symm.trans change
  | round change _ ih =>
      cases h' with
      | still quiet => cases change.symm.trans quiet
      | round change' rest =>
          cases change.symm.trans change'
          obtain ⟨rfl, rfl⟩ := ih rest
          exact ⟨rfl, rfl⟩

/-- Bounded rounds end where they settle if the bound is not below their
number. -/
theorem Settles.rounds_eq (h : Settles body n f g) {limit : Nat}
    (hlimit : n ≤ limit) (modified : Bool) :
    rounds body limit modified f
        = .ok ⟨g, modified || decide (1 < n), none⟩ := by
  induction h generalizing limit modified with
  | still quiet =>
      obtain ⟨limit, rfl⟩ := Nat.exists_eq_add_of_le' hlimit
      rw [rounds, quiet, ok_bind,
        decide_eq_false (Nat.lt_irrefl 1), Bool.or_false]
      rfl
  | round change rest ih =>
      obtain ⟨limit, rfl⟩ :=
        Nat.exists_eq_succ_of_ne_zero (by omega : limit ≠ 0)
      rw [rounds, change, ok_bind]
      dsimp only
      rw [if_pos rfl, ih (by omega) true]
      have hpos := rest.pos
      rw [Bool.true_or, decide_eq_true (by omega), Bool.or_true]

/-- Rounds that lower a measure whenever they report a change settle before it
is used up. -/
theorem settles_of_measure {P : Func → Prop} (measure : Func → Nat)
    (hstep : ∀ f, P f → ∃ modified g, body f = .ok ⟨g, modified, none⟩ ∧ P g
      ∧ (modified = false → g = f)
      ∧ (modified = true → measure g < measure f)) (hf : P f) :
    ∃ n g, n ≤ measure f + 1 ∧ Settles body n f g ∧ P g := by
  induction hm : measure f using Nat.strong_induction_on generalizing f with
  | _ w ih =>
      obtain ⟨modified, g, hg, hPg, hsame, hless⟩ := hstep f hf
      cases modified with
      | false =>
          rw [hsame rfl] at hg
          exact ⟨1, f, by omega, .still hg, hf⟩
      | true =>
          have hlt := hless rfl
          obtain ⟨n, k, hn, hk, hPk⟩ := ih (measure g) (hm ▸ hlt) hPg rfl
          exact ⟨n + 1, k, by omega, .round hg hk, hPk⟩

/-- The pass answers on every sound function, and its flag is honest. -/
def Honest (p : Pass) : Prop :=
  ∀ f : Func, f.WellFormed → ∃ modified g,
    p.apply f = .ok ⟨g, modified, none⟩ ∧ g.WellFormed
    ∧ f.Descends g modified

/-- A pass is honest if its flag is unset exactly where the function is as it
was. -/
theorem Honest.of_run {p : Pass} {run : Func → Changing Func (Bool × Func)}
    (happly : ∀ f, p.apply f = changed (run f))
    (hrun : ∀ f : Func, f.WellFormed →
      ∃ m g, run f = .ok (m, g) ∧ g.WellFormed ∧ f.Descends g m) :
        p.Honest := by
  intro f hf
  obtain ⟨m, g, hg, hwf, hdesc⟩ := hrun f hf
  exact ⟨m, g, by rw [happly, hg]; rfl, hwf, hdesc⟩

-- All three passes are honest.
theorem deadCode_honest : Pass.deadCode.Honest :=
  .of_run (fun f => by rw [apply]) fun _ => DeadCode.run_descends

theorem branchFusion_honest : Pass.branchFusion.Honest :=
  .of_run (fun f => by rw [apply]) fun _ => BranchFusion.run_descends

theorem frameCleanup_honest : Pass.frameCleanup.Honest :=
  .of_run (fun f => by rw [apply]) fun _ => FrameCleanup.run_descends

/-- Honest passes in turn are honest together; a flag that is set stays set. -/
theorem applyAll_descends {ps : List Pass} (hps : ∀ p ∈ ps, p.Honest)
    {f₀ : Func} {done : Bool} (hf : f.WellFormed) (h : f₀.Descends f done) :
    ∃ modified g, applyAll ps f done = .ok ⟨g, modified, none⟩ ∧ g.WellFormed
      ∧ f₀.Descends g modified ∧ (done = true → modified = true) := by
  induction ps generalizing f done with
  | nil => exact ⟨done, f, by rw [applyAll], hf, h, fun hd => hd⟩
  | cons p ps ih =>
      rw [List.forall_mem_cons] at hps
      obtain ⟨modified, g, hg, hwf, hdesc⟩ := hps.1 f hf
      obtain ⟨modified', g', hg', hwf', hdesc', hstays⟩ :=
        ih hps.2 hwf (h.trans hdesc)
      refine ⟨modified', g', ?_, hwf', hdesc',
        fun hd => hstays (by rw [hd, Bool.true_or])⟩
      rw [applyAll, hg, ok_bind]
      exact hg'

/-- In a round of honest passes that reports no change no pass finds anything to
do. -/
theorem apply_of_applyAll_quiet {ps : List Pass} (hps : ∀ p ∈ ps, p.Honest)
    (hf : f.WellFormed) (h : applyAll ps f false = .ok ⟨f, false, none⟩) :
    ∀ p ∈ ps, p.apply f = .ok ⟨f, false, none⟩ := by
  induction ps with
  | nil => exact fun p hp => absurd hp List.not_mem_nil
  | cons p ps ih =>
      rw [List.forall_mem_cons] at hps ⊢
      obtain ⟨modified, g, hg, hwf, hdesc⟩ := hps.1 f hf
      rw [applyAll, hg, ok_bind, Bool.false_or] at h
      dsimp only at h
      obtain ⟨modified', g', hg', -, -, hstays⟩ :=
        applyAll_descends hps.2 hwf hdesc
      rw [hg'] at h
      cases h
      cases modified with
      | true => cases hstays rfl
      | false =>
          rw [hdesc.same rfl] at hg hg'
          exact ⟨hg, ih hps.2 hg'⟩

-- ================================================================== result

/-- Rounds of honest passes settle on a sound function, after at most one round
more than it has blocks and instructions. -/
theorem settles_of_honest {ps : List Pass} (hps : ∀ p ∈ ps, p.Honest)
    (hf : f.WellFormed) :
    ∃ n g, n ≤ f.weight + 1 ∧ Settles (fun f => applyAll ps f false) n f g
        ∧ g.WellFormed := by
  refine settles_of_measure Func.weight (fun f hf => ?_) hf
  obtain ⟨modified, g, hg, hwf, hdesc, -⟩ := applyAll_descends hps hf (.refl f)
  exact ⟨modified, g, hg, hwf, hdesc.same, hdesc.lighter⟩

/-- Cleanup of a valid function. Each of the four transformations answers, and
its flag is unset exactly when the function is what it was. Rounds of folding
tests and removing dead code come to one that reports no change, after at most
as many rounds as there are blocks and instructions, and one. A fixpoint with a
bound of that many or more ends there, and of what it leaves neither pass
changes anything. -/
theorem cleanup_settles (hvalid : f.validate = .ok ()) :
    (∀ p ∈ [Pass.deadCode, .branchFusion, .frameCleanup, .phiRemoval],
      ∃ modified g, p.apply f = .ok ⟨g, modified, none⟩
          ∧ (modified = false ↔ g = f))
    ∧ ∃ count n g, f.instrCount = .ok count ∧ n ≤ f.blocks.length + count + 1
      ∧ Settles (fun f => applyAll [.branchFusion, .deadCode] f false) n f g
      ∧ (∀ limit : Int, n ≤ limit →
            (Pass.fixpoint [.branchFusion, .deadCode] limit).apply f
          = .ok ⟨g, decide (1 < n), none⟩)
      ∧ Pass.branchFusion.apply g = .ok ⟨g, false, none⟩
      ∧ Pass.deadCode.apply g = .ok ⟨g, false, none⟩ := by
  have hwf := Func.validate_eq_ok_iff.mp hvalid
  have hflag {p : Pass} (hp : p.Honest) :
      ∃ modified g, p.apply f = .ok ⟨g, modified, none⟩
        ∧ (modified = false ↔ g = f) := by
    obtain ⟨modified, g, hg, -, hdesc⟩ := hp f hwf
    exact ⟨modified, g, hg, hdesc.modified_eq_false_iff⟩
  have hphis : ∃ modified g, Pass.phiRemoval.apply f = .ok ⟨g, modified, none⟩
      ∧ (modified = false ↔ g = f) := by
    obtain ⟨modified, g, hg, hiff⟩ := PhiRemoval.run_modified hwf
    exact ⟨modified, g, by rw [apply, hg]; rfl, hiff⟩
  have hps : ∀ p ∈ [Pass.branchFusion, .deadCode], p.Honest := by
    rw [List.forall_mem_cons, List.forall_mem_singleton]
    exact ⟨branchFusion_honest, deadCode_honest⟩
  obtain ⟨n, g, hn, hsettles, hgwf⟩ := settles_of_honest hps hwf
  obtain ⟨hfusion, hdead⟩ : _ ∧ ∀ p ∈ [Pass.deadCode],
      p.apply g = .ok ⟨g, false, none⟩ :=
    List.forall_mem_cons.mp (apply_of_applyAll_quiet hps hgwf hsettles.quiet)
  refine ⟨?_, _, n, g, Func.instrCount_eq_sum hwf, hn, hsettles,
    fun limit hlimit => ?_, hfusion, hdead _ List.mem_cons_self⟩
  · simp only [List.forall_mem_cons]
    exact ⟨hflag deadCode_honest, hflag branchFusion_honest,
      hflag frameCleanup_honest, hphis, fun p hp => absurd hp List.not_mem_nil⟩
  · have hpos := hsettles.pos
    rw [apply, roundLimit, if_neg (by omega),
      hsettles.rounds_eq (by omega), Bool.false_or]

/-- A test that is read by the branch and by a sum that nobody reads. -/
def testedTwice : Func :=
  { name := "tested_twice", params := [0], returns := [.felt], nextValue := 3
    blocks :=
      [some { name := "entry", term := some (.branch (.value 1) 1 2),
              instrs := [.binary .eq 1 (.value 0) (.int 0),
                         .binary .add 2 (.value 1) (.value 1)] },
       some { name := "yes", preds := [0], term := some (.ret [.int 1]) },
       some { name := "no", preds := [0], term := some (.ret [.int 2]) }] }

/-- The first round removes the sum, only then the second can fold the test, and
the third finds nothing. -/
theorem cleanup_settles_testedTwice :
    testedTwice.validate = .ok ()
    ∧ ∃ g, Settles
      (fun f => applyAll [.branchFusion, .deadCode] f false) 3 testedTwice g
      ∧ g.blocks.head?
      = some (some { name := "entry", term := some (.branch (.value 0) 2 1) })
      ∧ (Pass.fixpoint [.branchFusion, .deadCode] 6).apply testedTwice
      = .ok ⟨g, true, none⟩
      ∧ Pass.branchFusion.apply g = .ok ⟨g, false, none⟩
      ∧ Pass.deadCode.apply g = .ok ⟨g, false, none⟩ := by
  have hvalid : testedTwice.validate = .ok () := rfl
  obtain ⟨-, count, n, g, -, -, hsettles, hfix, hfusion, hdead⟩ :=
    cleanup_settles hvalid
  obtain ⟨g', hg', hhead⟩ :
      ∃ g', Settles (fun f => applyAll [.branchFusion, .deadCode] f false) 3
      testedTwice g'
      ∧ g'.blocks.head?
      = some (some { name := "entry", term := some (.branch (.value 0) 2 1) }) :=
    ⟨_, .round rfl (.round rfl (.still rfl)), rfl⟩
  obtain ⟨rfl, rfl⟩ := hsettles.unique hg'
  exact ⟨hvalid, g, hg', hhead, hfix 6 (by decide), hfusion, hdead⟩

end Pass

end MirBackend
