/-
How often a group of passes is repeated.

The passes of a fixpoint run in rounds, each on what the round before left
(`roundStarts`), until one changes nothing, one fails, or the bound of the
fixpoint is reached. That bound is written in the schedule. The bound of a
configuration goes to the schedule as a whole, where `runToFixpoint` would use
it; running a schedule over a module does not look at it. So the aggressive
pipeline does at most ten rounds whatever a configuration asks for
(`optimize_rounds`).

Chains of negations show all of it. A round folds the last negation of a chain
into the branch that tests it and leaves a chain that is shorter by one
(`Chain`), so the number of rounds can be read off the length that is left.
-/
import Mathlib
import MirBackend.Proofs.Pass.Delivery
import MirBackend.Proofs.Pass.DeadCodeShape

namespace MirBackend

-- ================================================================== rounds

namespace Pass

variable {body body' : Func → Changing Func (Outcome Func)}

/-- The functions that rounds start from. -/
def roundStarts (body : Func → Changing Func (Outcome Func)) :
    Nat → Func → List Func
  | 0, _ => []
  | n + 1, f => f :: match body f with
    | .ok ⟨g, true, none⟩ => roundStarts body n g
    | _ => []

/-- The functions that the rounds of a fixpoint start from. -/
def fixpointStarts (ps : List Pass) (n : Int) (f : Func) : List Func :=
  roundStarts (fun f => applyAll ps f false) (roundLimit n) f

/-- There are no more rounds than are allowed. -/
theorem length_roundStarts_le (n : Nat) (f : Func) :
    (roundStarts body n f).length ≤ n := by
  induction n generalizing f with
  | zero => exact Nat.le_refl 0
  | succ n ih =>
      rw [roundStarts, List.length_cons]
      split
      · exact Nat.succ_le_succ (ih _)
      · exact Nat.succ_le_succ (Nat.zero_le n)

/-- Rounds run their body where they start and nowhere else. -/
theorem rounds_congr {n : Nat} {f : Func}
    (h : ∀ g ∈ roundStarts body n f, body' g = body g) (modified : Bool) :
    rounds body' n modified f = rounds body n modified f := by
  induction n generalizing f modified with
  | zero => rfl
  | succ n ih =>
      rw [roundStarts, List.forall_mem_cons] at h
      rw [rounds, rounds, h.1]
      cases hb : body f with
      | error e => rfl
      | ok o =>
          obtain ⟨g, changed, error⟩ := o
          rw [ok_bind, ok_bind]
          cases error with
          | some e => rfl
          | none =>
              cases changed with
              | false => rfl
              | true =>
                  rw [hb] at h
                  exact ih h.2 true

/-- A fixpoint is what its passes do to the functions that its rounds start
from. -/
theorem rounds_fixpointStarts {ps : List Pass} {n : Int} {f : Func}
    (h : ∀ g ∈ fixpointStarts ps n f, body' g = applyAll ps g false) :
    rounds body' (roundLimit n) false f = (fixpoint ps n).apply f := by
  rw [apply]
  exact rounds_congr h false

/-- Where a round takes one step down and there is no step below the last,
rounds take as many steps as they may; one more round is started if it may find
that nothing is left. -/
theorem rounds_descend {P : Nat → Func → Prop}
    (hstep : ∀ k f, P (k + 1) f → ∃ g, body f = .ok ⟨g, true, none⟩ ∧ P k g)
    (hstop : ∀ f, P 0 f → ∃ g, body f = .ok ⟨g, false, none⟩ ∧ P 0 g) (n : Nat)
    (modified : Bool) {k : Nat} {f : Func} (hf : P k f) :
    (∃ o, rounds body n modified f = .ok o ∧ o.error = none ∧ P (k - n) o.state)
      ∧ (roundStarts body n f).length = min (k + 1) n := by
  induction n generalizing k f modified with
  | zero => exact ⟨⟨⟨f, modified, none⟩, rfl, rfl, hf⟩, by simp [roundStarts]⟩
  | succ n ih =>
      rw [rounds, roundStarts, List.length_cons]
      cases k with
      | zero =>
          obtain ⟨g, hg, hP⟩ := hstop f hf
          rw [hg]
          exact ⟨⟨⟨g, modified, none⟩, rfl, rfl, by simpa using hP⟩, by simp⟩
      | succ k =>
          obtain ⟨g, hg, hP⟩ := hstep k f hf
          obtain ⟨⟨o, ho, herr, hPo⟩, hlen⟩ := ih true hP
          rw [hg]
          refine ⟨⟨o, ho, herr, by rwa [Nat.add_sub_add_right]⟩, ?_⟩
          show (roundStarts body n g).length + 1 = _
          rw [hlen]
          omega

end Pass

-- ================================================================== chains

namespace Negations

open Func

/-- The value that the first `i` negations lead to. -/
def valueOf (i : Nat) : ValueId := Int64.ofNat i

/-- A chain of negations, each of the value before; it starts at value zero. -/
def chain (k : Nat) : List Instr :=
  (List.range k).map fun i => .unary .not (valueOf (i + 1)) (.value (valueOf i))

/-- The block with the chain, and with the branch that tests what it leads
to. -/
def head (k : Nat) (t e : BlockId) : Block :=
  { name := "entry", instrs := chain k,
    term := some (.branch (.value (valueOf k)) t e) }

/-- One of the two blocks that the branch leads to. -/
def arm (name : String) (n : Int32) : Block :=
  { name, term := some (.ret [.int n]), preds := [0] }

/-- The targets of the branch, one way round or the other. -/
def Ways (t e : BlockId) : Prop := (t = 1 ∧ e = 2) ∨ (t = 2 ∧ e = 1)

/-- The function is a chain of `k` negations of its parameter, a branch and its
two arms. -/
structure Chain (k : Nat) (f : Func) : Prop where
  blocks : ∃ t e, Ways t e
    ∧ f.blocks = [some (head k t e), some (arm "yes" 1), some (arm "no" 2)]
  entry : f.entry = 0
  params : f.params = [0]
  /-- Different values have different numbers. -/
  few : k < 2 ^ 62

variable {f : Func} {k : Nat} {t e : BlockId}

/-- Numbers below `2 ^ 63` stand for different values. -/
theorem valueOf_inj {i j : Nat} (hi : i < 2 ^ 63) (hj : j < 2 ^ 63)
    (h : valueOf i = valueOf j) : i = j := by
  have h := congrArg Int64.toInt h
  rw [valueOf, valueOf, Int64.toInt_ofNat_of_lt hi,
    Int64.toInt_ofNat_of_lt hj] at h
  exact Int.ofNat_inj.mp h

-- A chain of negations, each of the value before it.
theorem chain_succ (k : Nat) :
    chain (k + 1) = chain k
        ++ [.unary .not (valueOf (k + 1)) (.value (valueOf k))] := by
  rw [chain, List.range_succ, List.map_append]
  rfl

theorem mem_chain {i : Instr} :
    i ∈ chain k ↔ ∃ j < k, i = .unary .not (valueOf (j + 1))
      (.value (valueOf j)) := by
  simp only [chain, List.mem_map, List.mem_range, eq_comm]

theorem uses_chain (k : Nat) :
    (chain k).flatMap Instr.uses = (List.range k).map valueOf := by
  rw [chain, List.flatMap_map, List.map_eq_flatMap]
  rfl

theorem dests_chain (k : Nat) :
    (chain k).flatMap Instr.dests = (List.range k).map fun i =>
    valueOf (i + 1) := by
  rw [chain, List.flatMap_map, List.map_eq_flatMap]
  rfl

theorem count_valueOf_chain (hk : k < 2 ^ 62) :
    ((chain k).flatMap Instr.uses).count (valueOf k) = 0 := by
  rw [uses_chain, List.count_eq_zero, List.mem_map]
  rintro ⟨j, hj, heq⟩
  rw [List.mem_range] at hj
  have := valueOf_inj (by omega) (by omega) heq
  omega

-- ================================================================== structure

namespace Chain

/-- The blocks, looked up. -/
theorem block?_eq
    (hb : f.blocks = [some (head k t e), some (arm "yes" 1), some (arm "no" 2)])
    {b : BlockId} {blk : Block} : f.block? b = some blk ↔
      (b = 0 ∧ blk = head k t e) ∨ (b = 1 ∧ blk = arm "yes" 1)
        ∨ (b = 2 ∧ blk = arm "no" 2) := by
  rw [block?_eq_some_iff, hb]
  constructor
  · rintro ⟨i, rfl, hi⟩
    match i, hi with
    | 0, hi => exact Or.inl ⟨rfl, by simpa using hi.symm⟩
    | 1, hi => exact Or.inr (Or.inl ⟨rfl, by simpa using hi.symm⟩)
    | 2, hi => exact Or.inr (Or.inr ⟨rfl, by simpa using hi.symm⟩)
    | _ + 3, hi => cases hi
  · rintro (⟨rfl, rfl⟩ | ⟨rfl, rfl⟩ | ⟨rfl, rfl⟩)
    · exact ⟨0, rfl, rfl⟩
    · exact ⟨1, rfl, rfl⟩
    · exact ⟨2, rfl, rfl⟩

/-- There is no phi in it. -/
theorem not_phi {i : Instr} (hi : i ∈ chain k) : i.isPhi = false := by
  obtain ⟨j, -, rfl⟩ := mem_chain.mp hi
  rfl

/-- The head goes to both arms, one way or the other. -/
theorem targets_head (hw : Ways t e) {s : BlockId} :
    s ∈ (head k t e).targets ↔ s = 1 ∨ s = 2 := by
  rcases hw with ⟨rfl, rfl⟩ | ⟨rfl, rfl⟩
  · show s ∈ [(1 : Int), 2] ↔ _
    simp
  · show s ∈ [(2 : Int), 1] ↔ _
    simp [or_comm]

/-- An arm, where the branch is the only way in. -/
theorem arm_ok (hhead : f.block? 0 = some (head k t e)) {b : BlockId}
    {name : String} {n : Int32} (hb : b ∈ (head k t e).targets) :
    f.BlockOk b (arm name n) where
  term := rfl
  target := fun s hs => by cases hs
  pred := fun p hp => ⟨head k t e, by rwa [List.mem_singleton.mp hp], hb⟩
  noHole := List.not_mem_nil
  phisLead := List.Pairwise.nil
  source := fun d u ss hm => by cases hm

/-- The chain's function is well-formed, and all of it can be reached. -/
theorem wellFormed (h : Chain k f) : f.WellFormed := by
  obtain ⟨t, e, hw, hb⟩ := h.blocks
  have hlook {b : BlockId} {blk : Block} : f.block? b = some blk
      ↔ _ := block?_eq hb
  have hhead : f.block? 0 = some (head k t e) := hlook.mpr (Or.inl ⟨rfl, rfl⟩)
  refine ⟨by simp [hb], ⟨head k t e, h.entry ▸ hhead, fun i hi => not_phi hi⟩,
    fun b blk hblk => ?_⟩
  rcases hlook.mp hblk with ⟨rfl, rfl⟩ | ⟨rfl, rfl⟩ | ⟨rfl, rfl⟩
  · refine ⟨rfl, fun s hs => ?_,
      fun p hp => absurd hp List.not_mem_nil, fun hm => ?_, ?_,
      fun d u ss hm => absurd (not_phi hm) (by simp [Instr.isPhi])⟩
    · rcases (targets_head hw).mp hs with rfl | rfl
      · exact ⟨_, hlook.mpr (Or.inr (Or.inl ⟨rfl, rfl⟩)),
          List.mem_singleton.mpr rfl⟩
      · exact ⟨_, hlook.mpr (Or.inr (Or.inr ⟨rfl, rfl⟩)),
          List.mem_singleton.mpr rfl⟩
    · obtain ⟨j, -, hj⟩ := mem_chain.mp hm
      cases hj
    · exact PhisLead.append List.Pairwise.nil fun i hi => not_phi hi
  · exact arm_ok hhead ((targets_head hw).mpr (Or.inl rfl))
  · exact arm_ok hhead ((targets_head hw).mpr (Or.inr rfl))

theorem phiFree (h : Chain k f) : f.PhiFree := by
  obtain ⟨t, e, -, hb⟩ := h.blocks
  rintro i ⟨b, blk, hblk, hi⟩
  rcases (block?_eq hb).mp hblk with ⟨-, rfl⟩ | ⟨-, rfl⟩ | ⟨-, rfl⟩
  · exact not_phi hi
  · cases hi
  · cases hi

theorem allReachable (h : Chain k f) : DeadCode.AllReachable f := by
  obtain ⟨t, e, hw, hb⟩ := h.blocks
  have hhead : f.block? 0 = some (head k t e) :=
    (block?_eq hb).mpr (Or.inl ⟨rfl, rfl⟩)
  have hstart : f.Reachable 0 := h.entry ▸ .entry
  intro b hhere
  obtain ⟨blk, hblk⟩ := block?_of_hasBlock h.wellFormed.full hhere
  rcases (block?_eq hb).mp hblk with ⟨rfl, -⟩ | ⟨rfl, -⟩ | ⟨rfl, -⟩
  · exact hstart
  · exact hstart.step ⟨_, hhead, (targets_head hw).mpr (Or.inl rfl)⟩ hhere
  · exact hstart.step ⟨_, hhead, (targets_head hw).mpr (Or.inr rfl)⟩ hhere

/-- It reads every value of the chain. -/
theorem reads (h : Chain k f) {v : ValueId} :
    f.Reads v ↔ ∃ i ≤ k, v = valueOf i := by
  obtain ⟨t, e, -, hb⟩ := h.blocks
  have hhead : f.block? 0 = some (head k t e) :=
    (block?_eq hb).mpr (Or.inl ⟨rfl, rfl⟩)
  constructor
  · rintro ⟨b, blk, hblk, hv⟩
    rcases (block?_eq hb).mp hblk with ⟨-, rfl⟩ | ⟨-, rfl⟩ | ⟨-, rfl⟩
    · rcases hv with ⟨i, hi, hv⟩ | hv
      · obtain ⟨j, hj, rfl⟩ := mem_chain.mp hi
        exact ⟨j, hj.le, List.mem_singleton.mp hv⟩
      · exact ⟨k, le_refl k, List.mem_singleton.mp hv⟩
    · rcases hv with ⟨i, hi, -⟩ | hv
      · cases hi
      · cases hv
    · rcases hv with ⟨i, hi, -⟩ | hv
      · cases hi
      · cases hv
  · rintro ⟨i, hi, rfl⟩
    refine ⟨0, _, hhead, ?_⟩
    rcases hi.lt_or_eq with hi | rfl
    · exact Or.inl ⟨_, mem_chain.mpr ⟨i, hi, rfl⟩, List.mem_singleton.mpr rfl⟩
    · exact Or.inr (List.mem_singleton.mpr rfl)

/-- And it defines all but the first, each once. -/
theorem definedValues (h : Chain k f) :
    f.definedValues = (List.range k).map fun i => valueOf (i + 1) := by
  obtain ⟨t, e, -, hb⟩ := h.blocks
  rw [Func.definedValues, hb, ← dests_chain]
  exact List.append_nil _

/-- Each negation is read by the next or by the branch. -/
theorem tidy (h : Chain k f) : DeadCode.Tidy f := by
  obtain ⟨t, e, -, hb⟩ := h.blocks
  rintro i ⟨b, blk, hblk, hi⟩
  rcases (block?_eq hb).mp hblk with ⟨-, rfl⟩ | ⟨-, rfl⟩ | ⟨-, rfl⟩
  · obtain ⟨j, hj, rfl⟩ := mem_chain.mp hi
    exact ⟨rfl, Or.inr ⟨_, List.mem_singleton.mpr rfl,
      h.reads.mpr ⟨j + 1, hj, rfl⟩⟩⟩
  · cases hi
  · cases hi

theorem singleAssignment (h : Chain k f) : f.SingleAssignment := by
  have hfew := h.few
  refine ⟨?_, fun p hp hd => ?_⟩
  · rw [h.definedValues]
    refine List.Nodup.map_on (fun i hi j hj heq => ?_) List.nodup_range
    rw [List.mem_range] at hi hj
    have := valueOf_inj (by omega) (by omega) heq
    omega
  · rw [h.params, List.mem_singleton] at hp
    rw [h.definedValues, hp, List.mem_map] at hd
    obtain ⟨i, hi, heq⟩ := hd
    rw [List.mem_range] at hi
    have := valueOf_inj (j := 0) (by omega) (by omega) heq
    omega

/-- A chain passes the checks of the input. -/
theorem validates (h : Chain k f) : f.validate = .ok ()
    ∧ f.validateSSA = .ok () := by
  refine ⟨validate_eq_ok_iff.mpr h.wellFormed,
    (validateSSA_eq_ok_iff h.wellFormed).mpr
    ⟨h.singleAssignment, fun v hv => ?_⟩⟩
  obtain ⟨i, hi, rfl⟩ := h.reads.mp hv
  cases i with
  | zero =>
      refine Or.inl ?_
      rw [h.params]
      exact List.mem_singleton.mpr rfl
  | succ i =>
      refine Or.inr ?_
      rw [h.definedValues]
      exact List.mem_map.mpr ⟨i, List.mem_range.mpr hi, rfl⟩

-- ================================================================== the passes

/-- Nothing in a chain is dead. -/
theorem deadCode_eq_self (h : Chain k f) :
    Pass.deadCode.apply f = .ok ⟨f, false, none⟩ := by
  rw [Pass.apply, DeadCode.run_eq_self h.wellFormed h.allReachable h.tidy]
  rfl

/-- No phis are there to be removed. -/
theorem phiRemoval_eq_self (h : Chain k f) :
    Pass.phiRemoval.apply f = .ok ⟨f, false, none⟩ := by
  obtain ⟨n, hn, hzero⟩ := phiTotal_spec h.wellFormed
  rw [Pass.apply, PhiRemoval.run, hn, given_ok, ok_bind,
    if_pos (hzero.mpr h.phiFree)]
  rfl

/-- A chain leaves memory alone, so the cleanup of frames is passed over. -/
theorem cleanup_eq_self (h : Chain k f) :
    (Pass.conditional .frameCleanup .usesMemory).apply f
      = .ok ⟨f, false, none⟩ := by
  obtain ⟨t, e, -, hb⟩ := h.blocks
  have hnone : (head k t e).instrs.any Instr.touchesMemory = false := by
    rw [List.any_eq_false]
    intro i hi
    obtain ⟨j, -, rfl⟩ := mem_chain.mp hi
    exact Bool.false_ne_true
  have huses : Condition.usesMemory.holds f = .ok false := by
    rw [Condition.holds, usesMemory, hb, usesMemory.anyBlock, hnone]
    rfl
  rw [Pass.apply, huses]
  rfl

/-- The reads as the pass lists them. -/
theorem reads_eq (hwf : f.WellFormed)
    (hb : f.blocks = [some (head k t e), some (arm "yes" 1),
      some (arm "no" 2)]) :
    f.reads = .ok ((chain k).flatMap Instr.uses ++ [valueOf k]) := by
  have hblocks : f.blocks = [head k t e, arm "yes" 1, arm "no" 2].map some := hb
  rw [reads_eq_flatten hwf hblocks]
  exact congrArg Except.ok (List.append_nil _)

/-- A block that cannot be fused is left as it is. -/
theorem fuseBlock_of_none {rs : List ValueId} {b : BlockId}
    {blk : Block} (modified : Bool) (hblk : f.block? b = some blk)
    (hnone : BranchFusion.fusion rs blk = none) :
    BranchFusion.fuseBlock rs (modified, f) b = .ok (modified, f) := by
  rw [BranchFusion.fuseBlock]
  dsimp only
  rw [block_eq_ok.mpr hblk, given_ok, ok_bind, hnone]
  rfl

/-- Without a negation the branch stays. -/
theorem branchFusion_eq_self (h : Chain 0 f) :
    Pass.branchFusion.apply f = .ok ⟨f, false, none⟩ := by
  obtain ⟨t, e, -, hb⟩ := h.blocks
  have hlook {b : BlockId} {blk : Block} : f.block? b = some blk
      ↔ _ := block?_eq hb
  have hnone : BranchFusion.fusion ((chain 0).flatMap Instr.uses ++ [valueOf 0])
      (head 0 t e) = none :=
    rfl
  have hrun : BranchFusion.run f = .ok (false, f) := by
    rw [BranchFusion.run, reads_eq h.wellFormed hb, given_ok, ok_bind, hb]
    show List.foldlM _ _ [(0 : Int), 1, 2] = _
    rw [List.foldlM_cons,
      fuseBlock_of_none _ (hlook.mpr (Or.inl ⟨rfl, rfl⟩)) hnone, ok_bind,
      List.foldlM_cons, fuseBlock_of_none
        _ (hlook.mpr (Or.inr (Or.inl ⟨rfl, rfl⟩))) rfl, ok_bind,
      List.foldlM_cons, fuseBlock_of_none
        _ (hlook.mpr (Or.inr (Or.inr ⟨rfl, rfl⟩))) rfl, ok_bind]
    rfl
  rw [Pass.apply, hrun]
  rfl

/-- A value that the last instruction defines. -/
theorem splitAtLastDef_concat {v : ValueId} {i : Instr} (hv : v ∈ i.dests)
    (is : List Instr) :
    BranchFusion.splitAtLastDef v (is ++ [i]) = some (is, i, []) := by
  induction is with
  | nil =>
      show (if v ∈ i.dests then some ([], i, []) else none) = _
      rw [if_pos hv]
  | cons j is ih => rw [List.cons_append, BranchFusion.splitAtLastDef, ih]

/-- The last negation is folded into the branch, whose targets change places. -/
theorem fusion_head (hk : k + 1 < 2 ^ 62) :
    BranchFusion.fusion
      ((chain (k + 1)).flatMap Instr.uses ++ [valueOf (k + 1)])
      (head (k + 1) t e)
      = some (chain k, .branch (.value (valueOf k)) e t) := by
  have hone : ((chain (k + 1)).flatMap Instr.uses ++ [valueOf (k + 1)]).count
      (valueOf (k + 1)) = 1 := by
    rw [List.count_append, count_valueOf_chain hk, List.count_singleton_self]
  have hlast : BranchFusion.splitAtLastDef (valueOf (k + 1)) (chain (k + 1))
      = some (chain k, .unary .not (valueOf (k + 1)) (.value (valueOf k)),
      []) := by
    rw [chain_succ]
    exact splitAtLastDef_concat (List.mem_singleton.mpr rfl) _
  simp only [BranchFusion.fusion, head, hone, if_true, hlast, List.any_nil,
    Bool.false_eq_true,
    if_false, BranchFusion.fusedTerm, Option.map_some, List.append_nil]

/-- A round of fusion makes a chain shorter by one. -/
theorem branchFusion_eq_shorter (h : Chain (k + 1) f) :
    ∃ g, Pass.branchFusion.apply f = .ok ⟨g, true, none⟩ ∧ Chain k g := by
  obtain ⟨t, e, hw, hb⟩ := h.blocks
  have hlook {b : BlockId} {blk : Block} : f.block? b = some blk
      ↔ _ := block?_eq hb
  have hhead : f.block? 0 = some (head (k + 1) t e) :=
    hlook.mpr (Or.inl ⟨rfl, rfl⟩)
  have hyes : f.block? 1 = some (arm "yes" 1) :=
    hlook.mpr (Or.inr (Or.inl ⟨rfl, rfl⟩))
  have hno : f.block? 2 = some (arm "no" 2) :=
    hlook.mpr (Or.inr (Or.inr ⟨rfl, rfl⟩))
  have hfew := h.few
  have hways : Ways e t := hw.symm.imp And.symm And.symm
  have htargets (s : BlockId) :
      s ∈ (Terminator.branch (.value (valueOf k)) e t).targets
      ↔ s ∈ (head (k + 1) t e).targets := by
    rw [targets_head hw]
    exact targets_head (k := k) hways
  obtain ⟨g, hg, hheader, hlen, hblock⟩ :=
    BranchFusion.setTerm_fusedBlock h.wellFormed (chain k) hhead htargets
  have hgblocks : g.blocks = [some (head k e t), some (arm "yes" 1),
      some (arm "no" 2)] := by
    have hmem (s : BlockId) := targets_head hw (k := k + 1) (s := s)
    rw [blocks_eq_range, hlen, hb]
    show [g.block? 0, g.block? 1, g.block? 2] = _
    rw [hblock, hblock, hblock, hhead, hyes, hno]
    simp only [Option.map_some, BranchFusion.fusedBlock, hmem]
    rfl
  have hfirst : BranchFusion.fuseBlock ((chain (k + 1)).flatMap Instr.uses
      ++ [valueOf (k + 1)])
      (false, f) 0 = .ok (true, g) := by
    rw [BranchFusion.fuseBlock]
    dsimp only
    rw [block_eq_ok.mpr hhead, given_ok, ok_bind, fusion_head (by omega)]
    dsimp only
    rw [hg]
    rfl
  have hglook {b : BlockId} {blk : Block} : g.block? b = some blk ↔ _ :=
    block?_eq hgblocks
  have hrun : BranchFusion.run f = .ok (true, g) := by
    rw [BranchFusion.run, reads_eq h.wellFormed hb, given_ok, ok_bind, hb]
    show List.foldlM _ _ [(0 : Int), 1, 2] = _
    rw [List.foldlM_cons, hfirst, ok_bind,
      List.foldlM_cons, fuseBlock_of_none
        _ (hglook.mpr (Or.inr (Or.inl ⟨rfl, rfl⟩))) rfl, ok_bind,
      List.foldlM_cons, fuseBlock_of_none
        _ (hglook.mpr (Or.inr (Or.inr ⟨rfl, rfl⟩))) rfl, ok_bind]
    rfl
  refine ⟨g, ?_, ⟨e, t, hways, hgblocks⟩, ?_, ?_, by omega⟩
  · rw [Pass.apply, hrun]
    rfl
  · rw [hheader.entry, h.entry]
  · rw [hheader.params, h.params]

-- ================================================================ the pipeline

/-- A round of fusion and removal of dead code, which finds nothing dead. -/
theorem round_eq {g : Func} {modified : Bool} (hg : Chain k g)
    (hfuse : Pass.branchFusion.apply f = .ok ⟨g, modified, none⟩) :
    Pass.applyAll [.branchFusion, .deadCode] f false
        = .ok ⟨g, modified, none⟩ := by
  rw [Pass.applyAll, hfuse, ok_bind]
  dsimp only
  rw [Pass.applyAll, hg.deadCode_eq_self, ok_bind]
  dsimp only
  rw [Pass.applyAll, Bool.false_or, Bool.or_false]

/-- Fusion repeated with the default bound takes ten negations away, or as many
as there are. -/
theorem fusion_rounds (h : Chain k f) :
    (∃ o, (Pass.fixpoint [.branchFusion, .deadCode] 0).apply f
      = .ok o ∧ o.error = none
      ∧ Chain (k - 10) o.state)
    ∧ (Pass.fixpointStarts [.branchFusion, .deadCode] 0 f).length
    = min (k + 1) 10 := by
  rw [Pass.apply]
  refine Pass.rounds_descend (P := Chain) (fun k f hf => ?_) (fun f hf => ?_)
    (Pass.roundLimit 0) false h
  · obtain ⟨g, hg, hchain⟩ := hf.branchFusion_eq_shorter
    exact ⟨g, round_eq hchain hg, hchain⟩
  · exact ⟨f, round_eq hf hf.branchFusion_eq_self, hf⟩

/-- A pass that leaves every chain as it is leads from chains to chains. -/
theorem leads_of_eq_self {p : Pass}
    (hp : ∀ f, Chain k f → p.apply f = .ok ⟨f, false, none⟩) :
    p.Leads (Chain k) (Chain k) :=
  fun f hf => ⟨_, hp f hf, rfl, hf⟩

/-- The steps of the pipeline before the rounds leave a chain as it is. -/
theorem aggressive_leads (cfg : ValidationConfig) (k : Nat) :
    Schedule.StepsLead [.pass (.validation cfg),
        .pass (.conditional .frameCleanup .usesMemory),
      .pass (.fixpoint [.deadCode] 0), .pass
        (.validation cfg), .pass .phiRemoval,
      .pass (.fixpoint [.branchFusion, .deadCode] 0), .pass
        (.phiFreeValidation cfg)]
      (Chain k) (Chain (k - 10)) :=
  have hdead : Pass.AllLead [.deadCode] (Chain k) (Chain k) :=
    .cons (leads_of_eq_self fun _ hf => hf.deadCode_eq_self) (.nil _)
  .cons (Pass.validation_leads cfg fun _ hf => hf.validates) <|
  .cons (leads_of_eq_self fun _ hf => hf.cleanup_eq_self) <|
  .cons (Pass.fixpoint_leads hdead (fun _ hf => hf) 0) <|
  .cons (Pass.validation_leads cfg fun _ hf => hf.validates) <|
  .cons (leads_of_eq_self fun _ hf => hf.phiRemoval_eq_self) <|
  .cons (fun _ hf => hf.fusion_rounds.1) <|
  .cons (Pass.phiFreeValidation_leads cfg fun _ hf =>
    ⟨hf.wellFormed, hf.phiFree⟩) (.nil _)

/-- A module of one chain passes the checks of the input. -/
theorem checkInput_eq_ok (h : Chain k f) :
    Compile.checkInput ⟨[f]⟩ = .ok () := by
  obtain ⟨t, e, -, hb⟩ := h.blocks
  have hpresent : f.present = .ok [head k t e, arm "yes" 1, arm "no" 2] :=
    present_eq_ok.mpr hb
  -- a negation is no call
  have hcalls (m : Module) : (chain k).forM (m.checkCall f.name) = .ok () := by
    rw [Compile.forM_eq_ok]
    intro i hi
    obtain ⟨j, -, rfl⟩ := mem_chain.mp hi
    rfl
  have hmodule : Module.validate ⟨[f]⟩ = .ok () := by
    rw [Module.validate, Compile.forM_eq_ok, List.forall_mem_singleton,
      seq_eq_ok, h.validates.1, hpresent]
    refine ⟨rfl, ?_⟩
    rw [liftChecked_ok, ok_bind, Compile.forM_eq_ok]
    simp only [List.forall_mem_cons]
    exact ⟨hcalls _, rfl, rfl, fun _ hb => absurd hb List.not_mem_nil⟩
  rw [Compile.checkInput, seq_eq_ok, hmodule, Compile.forM_eq_ok,
    List.forall_mem_singleton, h.validates.1, h.validates.2]
  exact ⟨rfl, rfl⟩

end Chain

/-- The function that consists of a chain. -/
def nots (k : Nat) : Func :=
  { name := "nots", blocks := [some (head k 1 2), some (arm "yes" 1), some (arm "no" 2)]
    params := [0], returns := [.felt], nextValue := valueOf (k + 1) }

/-- The negations in a row are a chain. -/
theorem chain_nots {k : Nat} (hk : k < 2 ^ 62) : Chain k (nots k) :=
  ⟨⟨1, 2, Or.inl ⟨rfl, rfl⟩, rfl⟩, rfl, rfl, hk⟩

end Negations

-- ================================================================== the bound

namespace Compile

/-- The bound of a configuration has no effect. -/
theorem optimize_maxRounds (cfg : Config) (n : Int) (m : Module) :
    optimize { cfg with maxRounds := n } m = optimize cfg m := by
  have hsame (k : Int) (s : Schedule) :
      (if k = 0 then s else { s with maxRounds := k }).runModule m
      = s.runModule m := by
    rw [Schedule.runModule, Schedule.runModule]
    split <;> rfl
  have hrun (s : Schedule) : runPipeline { cfg with maxRounds := n } s m
    = runPipeline cfg s m := by
    rw [runPipeline, runPipeline, hsame, hsame]
    rfl
  rw [optimize, optimize]
  simp only [hrun, pipelineOf]

/-- The rounds of the aggressive pipeline. The bound of the configuration has no
effect, on any module. Every fixpoint of the pipeline starts ten rounds at most,
on any function, and runs its passes nowhere but on the functions that those
rounds start from. And it starts as many as ten where there is work for them: of
a chain of negations the fusion folds ten, or all if there are fewer. -/
theorem optimize_rounds {cfg : Config} (hcfg : pipelineOf cfg = .aggressive) :
    (∀ (n : Int) (m : Module),
      optimize { cfg with maxRounds := n } m = optimize cfg m)
    ∧ (∀ s, (pipelineOf cfg).schedule? cfg.validation = some s →
      ∀ ps n, Pass.fixpoint ps n ∈ s.passes → ∀ f,
        (Pass.fixpointStarts ps n f).length ≤ 10
        ∧ ∀ body, (∀ g ∈ Pass.fixpointStarts ps n f,
            body g = Pass.applyAll ps g false) →
          Pass.rounds body (Pass.roundLimit n) false f
              = (Pass.fixpoint ps n).apply f)
    ∧ ∀ k f, Negations.Chain k f →
      (Pass.fixpointStarts [.branchFusion, .deadCode] 0 f).length = min
      (k + 1) 10
      ∧ ∃ g, optimize cfg ⟨[f]⟩ = .ok (⟨[g]⟩, none)
      ∧ Negations.Chain (k - 10) g := by
  refine ⟨optimize_maxRounds cfg, fun s hs ps n hp f => ?_,
    fun k f hf => ⟨hf.fusion_rounds.2, ?_⟩⟩
  · rw [hcfg] at hs
    cases hs
    have hzero : n = 0 := by
      simp only [Schedule.passes, List.filterMap_cons,
        List.cons_append, List.nil_append,
        List.filterMap_nil, List.mem_cons, Pass.fixpoint.injEq, reduceCtorEq,
        List.not_mem_nil, false_or, or_false] at hp
      rcases hp with ⟨-, hn⟩ | ⟨-, hn⟩ <;> exact hn
    rw [hzero]
    exact ⟨Pass.length_roundStarts_le 10 f,
      fun body hbody => Pass.rounds_fixpointStarts hbody⟩
  · obtain ⟨m', hm', hlen, hall⟩ := optimize_leads (by rw [hcfg]; rfl)
      (Negations.Chain.aggressive_leads cfg.validation k)
      (fun g hg => ⟨hg.wellFormed, hg.phiFree⟩)
      hf.checkInput_eq_ok (by simpa using hf)
    obtain ⟨g, hg⟩ := List.length_eq_one_iff.mp hlen
    refine ⟨g, ?_, hall g (by rw [hg]; exact List.mem_singleton.mpr rfl)⟩
    rw [hm', ← hg]

/-- Of thirteen negations ten are folded, in ten rounds, although one round was
asked for. -/
theorem optimize_rounds_nots :
    pipelineOf { pipeline := .aggressive, maxRounds := 1 } = .aggressive
    ∧ (Pass.fixpointStarts [.branchFusion,
      .deadCode] 0 (Negations.nots 13)).length = 10
    ∧ ∃ g, optimize { pipeline := .aggressive, maxRounds := 1 }
        ⟨[Negations.nots 13]⟩
        = .ok (⟨[g]⟩, none) ∧ Negations.Chain 3 g :=
  ⟨rfl, (@optimize_rounds { pipeline := .aggressive, maxRounds := 1 } rfl).2.2
    13 _
    (Negations.chain_nots (by decide))⟩

end Compile

end MirBackend
