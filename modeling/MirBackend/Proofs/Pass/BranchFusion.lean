/-
Folding tests into branches keeps the graph.

A fused block loses one instruction and branches on other operands, to the
same two blocks, perhaps the other way round (`fusion_spec`). Its successors
strike it and list it again, so their lists keep their elements. Every step of
the pass is therefore a change that leaves the edges (`fuseBlock_reshaped`).
-/
import Mathlib
import MirBackend.Pass.BranchFusion
import MirBackend.Proofs.Func.Instrs

namespace MirBackend.BranchFusion

-- ============================================================== one block

/-- The list around the last definition of a value. -/
theorem splitAtLastDef_eq_some {v : ValueId}
    {is before after : List Instr} {d : Instr}
    (h : splitAtLastDef v is = some (before, d, after)) :
    is = before ++ d :: after := by
  induction is generalizing before with
  | nil => cases h
  | cons i is ih =>
      rw [splitAtLastDef] at h
      split at h
      · next before' d' after' hrec =>
        cases h
        rw [ih hrec]
        rfl
      · split at h
        · cases h
          rfl
        · cases h

/-- The fused terminator goes to the same two blocks. -/
theorem mem_targets_fusedTerm {t e s : BlockId} {i : Instr} {tm : Terminator}
    (h : fusedTerm t e i = some tm) : s ∈ tm.targets ↔ s = t ∨ s = e := by
  -- two targets, listed once where they are the same
  have hpair (a b : BlockId) : s ∈ (if a = b then [a] else [a, b])
      ↔ s = a ∨ s = b := by
    split
    · next hab => simp [hab]
    · simp
  unfold fusedTerm at h
  split at h
  · split at h
    all_goals cases h
    · exact (hpair e t).trans or_comm
    · exact hpair t e
  · split at h
    all_goals cases h
    · exact hpair t e
    · exact hpair t e
  · cases h
    exact hpair t e
  · cases h
    exact hpair t e
  · cases h
    exact (hpair e t).trans or_comm
  · cases h

/-- What fusion makes of a block: fewer instructions, and a terminator with the
same targets. -/
theorem fusion_spec {reads : List ValueId} {blk : Block}
    {is : List Instr} {tm : Terminator} (h : fusion reads blk = some (is, tm)) :
    is.Sublist blk.instrs ∧ ∀ s, s ∈ tm.targets ↔ s ∈ blk.targets := by
  unfold fusion at h
  split at h
  case h_2 => cases h
  case h_1 c t e hterm =>
    split at h
    case isFalse => cases h
    case isTrue =>
      split at h
      case h_1 => cases h
      case h_2 before d after hsplit =>
        split at h
        case isTrue => cases h
        case isFalse =>
          obtain ⟨tm', htm, heq⟩ := Option.map_eq_some_iff.mp h
          cases heq
          refine ⟨?_, fun s => ?_⟩
          -- the test is the one instruction that goes
          · rw [splitAtLastDef_eq_some hsplit]
            exact List.Sublist.append (List.Sublist.refl _)
              (List.sublist_cons_self d after)
          · rw [mem_targets_fusedTerm htm, Block.targets, hterm, targetsOf,
              Terminator.targets]
            split
            · next hte => simp [hte]
            · simp

-- ================================================================ the pass

variable {f : Func}

/-- A block of the function after block `b` got other instructions and a
terminator with the same targets `ts`. -/
def fusedBlock (b : BlockId) (is : List Instr) (tm : Terminator)
    (ts : List BlockId) (c : BlockId) (blk : Block) : Block :=
  { blk with
    instrs := if c = b then is else blk.instrs
    term := if c = b then some tm else blk.term
    preds := if c ∈ ts then Func.listed b (blk.preds.erase b) else blk.preds }

/-- Replacing the instructions of a block, and its terminator by one with the
same targets. -/
theorem setTerm_fusedBlock (h : f.WellFormed) {b : BlockId}
    {blk : Block} (is : List Instr) {tm : Terminator}
    (hblk : f.block? b = some blk)
    (htargets : ∀ s, s ∈ tm.targets ↔ s ∈ blk.targets) :
    ∃ g, (f.modifyBlock b fun blk => { blk with instrs := is }).setTerm b
      (some tm) = .ok g
      ∧ f.SameHeader g ∧ g.blocks.length = f.blocks.length
      ∧ ∀ c, g.block? c = (f.block? c).map
      (fusedBlock b is tm blk.targets c) := by
  obtain ⟨f₁, hf₁⟩ : ∃ f₁, f₁ = f.modifyBlock b fun blk =>
      { blk with instrs := is } := ⟨_, rfl⟩
  have hblock (c : BlockId) : f₁.block? c = if c = b then
      (f.block? c).map fun blk =>
      { blk with instrs := is } else f.block? c := by
    rw [hf₁]
    exact f.block?_modifyBlock b c _
  -- the targets stay, so they exist with the new terminator too
  have hex (t : BlockId) (ht : t ∈ blk.targets) :
      ∃ tb, f₁.block? t = some tb := by
    obtain ⟨tb, htb⟩ := h.target_exists hblk ht
    rw [hblock, htb]
    split <;> exact ⟨_, rfl⟩
  have hb : f₁.block? b = some { blk with instrs := is } := by
    rw [hblock, if_pos rfl, hblk]
    rfl
  have hnew : ∀ t ∈ targetsOf (some tm), ∃ tb, f₁.block? t = some tb :=
    fun t ht => hex t ((htargets t).mp ht)
  obtain ⟨g, hg, hl⟩ := Func.setTerm_listing hb hex hnew
  rw [← hf₁]
  refine ⟨g, hg, ?_, ?_, fun c => ?_⟩
  · have h₁ : f.SameHeader f₁ := hf₁ ▸ f.sameHeader_modifyBlock b _
    exact (h₁.trans (f₁.sameHeader_modifyBlock b _)).trans hl.header
  · rw [hl.length, Func.length_modifyBlock, hf₁, Func.length_modifyBlock]
  · have htm : c ∈ targetsOf (some tm) ↔ c ∈ blk.targets := htargets c
    rw [hl.block, Func.block?_modifyBlock]
    cases hc : f.block? c with
    | none => simp only [hblock, hc, Option.map_none, ite_self]
    | some cb =>
        have hpreds : f₁.predTable c = cb.preds := by
          rw [Func.predTable, hblock, hc]
          split <;> rfl
        simp only [htm, hpreds, hblock, hc, Option.map_some]
        simp only [Block.targets]
        -- a target has the block struck from its list and listed again
        by_cases hct : c ∈ targetsOf blk.term
        · simp only [hct, if_true, fusedBlock]
          split <;> rfl
        · simp only [hct, if_false, fusedBlock]
          split <;> rfl

/-- Each block is reshaped only. -/
theorem fusedBlock_reshaped (h : f.WellFormed) {b c : BlockId}
    {blk cb : Block} {is : List Instr} {tm : Terminator}
    (hblk : f.block? b = some blk) (hc : f.block? c = some cb)
    (hsub : is.Sublist blk.instrs)
    (htargets : ∀ s, s ∈ tm.targets ↔ s ∈ blk.targets) :
    cb.Reshaped (fusedBlock b is tm blk.targets c cb) := by
  have hsame (hcb : c = b) : cb = blk := by
    rw [hcb, hblk] at hc
    exact (Option.some.inj hc).symm
  refine ⟨fun ht => ?_, fun s => ?_, fun p => ?_, fun hnd => ?_,
    fun i hi => ?_, fun hlead => ?_⟩
  · simp only [fusedBlock]
    split
    · rfl
    · exact ht
  · simp only [fusedBlock, Block.targets]
    split
    · next hcb => rw [hsame hcb]; exact htargets s
    · exact Iff.rfl
  · simp only [fusedBlock]
    split
    · -- struck and listed again
      next hct =>
      have hbp : b ∈ cb.preds := (h.mem_preds_iff hc).mpr ⟨blk, hblk, hct⟩
      rw [Func.mem_listed]
      by_cases hpb : p = b
      · simp [hpb, hbp]
      · simp [hpb, List.mem_erase_of_ne hpb]
    · exact Iff.rfl
  · simp only [fusedBlock]
    split
    · exact Func.listed_nodup (hnd.erase b)
    · exact hnd
  · simp only [fusedBlock] at hi
    split at hi
    · next hcb => rw [hsame hcb]; exact Or.inl (hsub.subset hi)
    · exact Or.inl hi
  · simp only [fusedBlock]
    split
    · next hcb => rw [hsame hcb] at hlead; exact hlead.sublist hsub
    · exact hlead

/-- One step of the pass leaves the edges, and adds no instruction. -/
theorem fuseBlock_reshaped (h : f.WellFormed) (reads : List ValueId)
    (fused : Bool) {b : BlockId} (hb : f.hasBlock b = true) :
    ∃ m g, fuseBlock reads (fused, f) b = .ok (m, g) ∧ f.Reshaped g
      ∧ ∀ i, g.HasInstr i → f.HasInstr i := by
  obtain ⟨blk, hblk⟩ := Func.block?_of_hasBlock h.full hb
  simp only [fuseBlock, Func.block_eq_ok.mpr hblk, given_ok, ok_bind]
  cases hfusion : fusion reads blk with
  | none => exact ⟨fused, f, rfl, .refl f, fun _ hi => hi⟩
  | some x =>
      obtain ⟨is, tm⟩ := x
      obtain ⟨hsub, htargets⟩ := fusion_spec hfusion
      obtain ⟨g, hg, hheader, hlen, hblock⟩ :=
        setTerm_fusedBlock h is hblk htargets
      refine ⟨true, g, by simp only [hg]; rfl,
        ⟨hlen, hheader.entry, fun c => ?_⟩, ?_⟩
      · rw [hblock]
        cases hc : f.block? c with
        | none => exact .none
        | some cb => exact .some (fusedBlock_reshaped h hblk hc hsub htargets)
      · rintro i ⟨c, cb', hc, hi⟩
        rw [hblock] at hc
        obtain ⟨cb, hcb, rfl⟩ := Option.map_eq_some_iff.mp hc
        by_cases hcb' : c = b
        · rw [fusedBlock, if_pos hcb'] at hi
          exact ⟨b, blk, hblk, hsub.subset hi⟩
        · rw [fusedBlock, if_neg hcb'] at hi
          exact ⟨c, cb, hcb, hi⟩

/-- The pass answers; what it leaves is sound in structure and has no new
instructions. -/
theorem run_wellFormed (h : f.WellFormed) (hd : f.PredsDistinct) :
    ∃ m g, run f = .ok (m, g) ∧ g.WellFormed ∧ g.PredsDistinct
      ∧ ∀ i, g.HasInstr i → f.HasInstr i := by
  obtain ⟨rs, hrs, -⟩ := Func.reads_spec h
  have hstep : ∀ x : Bool × Func, (x.2.WellFormed ∧ x.2.PredsDistinct
      ∧ x.2.blocks.length = f.blocks.length
      ∧ ∀ i, x.2.HasInstr i → f.HasInstr i) →
      ∀ b ∈ (List.range f.blocks.length).map Int.ofNat, ∃ y,
        fuseBlock rs x b = .ok y
        ∧ y.2.WellFormed ∧ y.2.PredsDistinct
        ∧ y.2.blocks.length = f.blocks.length ∧ ∀ i, y.2.HasInstr i →
        f.HasInstr i := by
    rintro ⟨fused, k⟩ ⟨hwf, hpd, hlen, hinstr⟩ b hb
    obtain ⟨j, hj, rfl⟩ := List.mem_map.mp hb
    have hhere : k.hasBlock (Int.ofNat j) = true :=
      Func.hasBlock_iff.mpr ⟨j, rfl, by rw [hlen]; exact List.mem_range.mp hj⟩
    obtain ⟨m, g, hg, hre, hnew⟩ := fuseBlock_reshaped hwf rs fused hhere
    exact ⟨(m, g), hg, hre.wellFormed hwf, hre.predsDistinct hpd,
      hre.length.trans hlen, fun i hi => hinstr i (hnew i hi)⟩
  obtain ⟨⟨m, g⟩, hg, hwf, hpd, -, hinstr⟩ :=
    foldlM_invariant hstep (s := (false, f)) ⟨h, hd, rfl, fun _ hi => hi⟩
  refine ⟨m, g, ?_, hwf, hpd, hinstr⟩
  rw [run, hrs, given_ok, ok_bind]
  exact hg

end MirBackend.BranchFusion
