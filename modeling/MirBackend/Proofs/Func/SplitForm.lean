/-
Splitting an edge keeps single-assignment form.

A walk in the split function, with the new block left out, is a walk in the
function as it was; a walk that ends in the new block has just come from the
source of the edge. So what dominated a block still does, and what dominated
the source dominates the new block. The definitions stay where they are. A
value that a phi takes from the new block was available at the end of the
source, hence it is at the end of the new block (`SplitOf.strict`).
-/
import Mathlib
import MirBackend.Proofs.Func.Linked
import MirBackend.Proofs.Func.Strict

namespace MirBackend.Func

variable {f g : Func} {source target : BlockId}

-- ============================================================= instructions

-- Renaming the source of a phi changes neither what is defined nor what is
-- read.
@[simp] theorem dests_renameSource (old new : BlockId) (i : Instr) :
    (renameSource old new i).dests = i.dests := by
  cases i <;> rfl

@[simp] theorem operands_renameSource (old new : BlockId) (i : Instr) :
    (renameSource old new i).operands = i.operands := by
  cases i with
  | phi d t ss =>
      simp only [renameSource, Instr.operands, List.map_map]
      refine List.map_congr_left fun s _ => ?_
      simp only [Function.comp_apply]
      split <;> rfl
  | _ => rfl

@[simp] theorem uses_renameSource (old new : BlockId) (i : Instr) :
    (renameSource old new i).uses = i.uses := by
  simp only [Instr.uses, operands_renameSource]

/-- Other instructions stay as they are. -/
theorem renameSource_of_not_phi {old new : BlockId} {i : Instr}
    (h : i.isPhi = false) : renameSource old new i = i := by
  cases i with
  | phi d t ss => cases h
  | _ => rfl

/-- Redirecting a terminator does not change what it reads. -/
@[simp] theorem operands_redirect (old new : BlockId) (t : Terminator) :
    (t.redirect old new).operands = t.operands := by
  cases t <;> rfl

/-- The terminator of a block that a split changed reads what it did. -/
theorem usesOf_splitBlock (mid c : BlockId) (blk : Block) :
    usesOf (splitBlock source target mid c blk).term = usesOf blk.term := by
  simp only [splitBlock]
  split
  · cases blk.term with
    | none => rfl
    | some t => simp only [Option.map_some, usesOf, Terminator.uses,
      operands_redirect]
  · rfl

/-- An instruction of a block that a split changed, by its place. -/
theorem getElem?_splitBlock (mid c : BlockId) (blk : Block) (j : Nat) :
    (splitBlock source target mid c blk).instrs[j]?
      = blk.instrs[j]?.map fun i => if c
      = target then renameSource source mid i else i := by
  by_cases hc : c = target
  · simp [splitBlock, hc]
  · simp [splitBlock, hc]

-- ============================================================== definitions

/-- Definitions stay where they were: the new block has none, and the others are
renamed at most. -/
theorem SplitOf.definedAt_iff (h : f.SplitOf g source target)
    {c : BlockId} {i : Nat} {v : ValueId} :
    g.DefinedAt c i v ↔ f.DefinedAt c i v := by
  constructor
  · intro hd
    obtain ⟨blk, ins, hblk, hins, hv⟩ := hd
    rcases h.block?_cases hblk with ⟨rfl, rfl⟩ | ⟨blk₀, hblk₀, rfl⟩
    · simp [midBlock] at hins
    · rw [getElem?_splitBlock] at hins
      obtain ⟨ins₀, hins₀, rfl⟩ := Option.map_eq_some_iff.mp hins
      refine ⟨blk₀, ins₀, hblk₀, hins₀, ?_⟩
      split at hv
      · rwa [dests_renameSource] at hv
      · exact hv
  · intro hd
    obtain ⟨blk, ins, hblk, hins, hv⟩ := hd
    refine ⟨_, _, h.block?_old hblk, by rw [getElem?_splitBlock, hins]; rfl, ?_⟩
    dsimp only
    split
    · rwa [dests_renameSource]
    · exact hv

/-- Whatever is read off instructions and does not depend on a phi's sources is
read off the blocks as before. -/
theorem flatMap_splitBlock {β : Type} {read : Instr → List β}
    {mid c : BlockId} {blk : Block}
    (hread : ∀ i, read (renameSource source mid i) = read i) :
    (splitBlock source target mid c blk).instrs.flatMap read
      = blk.instrs.flatMap read := by
  simp only [splitBlock]
  split
  · rw [List.flatMap_map]
    exact congrArg (List.flatMap · blk.instrs) (funext hread)
  · rfl

/-- What is read off the blocks in order stays, when it is read off each
block. -/
theorem SplitOf.flatMap_blocks (h : f.SplitOf g source target) {β : Type}
    {read : Option Block → List β}
    (hmid : read (some (midBlock source target)) = [])
    (hold : ∀ c blk, f.block? c = some blk →
      read (some (splitBlock source target f.blocks.length c blk))
          = read (some blk)) :
    g.blocks.flatMap read = f.blocks.flatMap read := by
  rw [blocks_eq_range g, h.length, List.range_succ, List.map_append,
    List.flatMap_append,
    List.map_singleton, List.flatMap_singleton, h.block?_mid,
      hmid, List.append_nil]
  conv_rhs => rw [blocks_eq_range f]
  rw [List.flatMap_map, List.flatMap_map]
  refine List.flatMap_congr fun i hi => ?_
  rw [h.block, if_neg]
  · cases hb : f.block? (i : Int) with
    | none => rfl
    | some blk => exact hold i blk hb
  · rw [List.mem_range] at hi
    exact fun heq => absurd (Int.ofNat_inj.mp heq) (by omega)

/-- The same values are defined, in the same order. -/
theorem SplitOf.definedValues (h : f.SplitOf g source target) :
    g.definedValues = f.definedValues :=
  h.flatMap_blocks rfl fun _ _ _ => flatMap_splitBlock (dests_renameSource _ _)

/-- So each is still defined once. -/
theorem SplitOf.singleAssignment (h : f.SplitOf g source target)
    (hs : f.SingleAssignment) : g.SingleAssignment := by
  refine ⟨h.definedValues ▸ hs.nodup, fun p hp => ?_⟩
  rw [h.definedValues]
  exact hs.params p (h.header.params ▸ hp)

-- =================================================================== walks

/-- An edge of the split function is one of the two new ones or was there
before. -/
theorem SplitOf.hasEdge_cases (h : f.SplitOf g source target) {p b : BlockId}
    (he : g.HasEdge p b) :
    (p = f.blocks.length ∧ b = target) ∨ (p = source ∧ b = f.blocks.length)
      ∨ (f.HasEdge p b ∧ ¬(p = source ∧ b = target)) := by
  obtain ⟨pb, hpb, hb⟩ := he
  rcases h.block?_cases hpb with ⟨rfl, rfl⟩ | ⟨pb₀, hpb₀, rfl⟩
  · rw [midBlock_targets, List.mem_singleton] at hb
    exact Or.inl ⟨rfl, hb⟩
  · obtain ⟨u, hu, rfl⟩ := mem_targets_splitBlock.mp hb
    split
    · next hpu => exact Or.inr (Or.inl ⟨hpu.1, rfl⟩)
    · next hpu => exact Or.inr (Or.inr ⟨⟨pb₀, hpb₀, hu⟩, hpu⟩)

/-- The number of a new block is not that of a block. -/
theorem ne_length_of_block? {b : BlockId} {blk : Block}
    (hb : f.block? b = some blk) : b ≠ (f.blocks.length : Int) := by
  intro heq
  rw [heq, f.block?_length] at hb
  cases hb

/-- A walk with the new block left out is a walk of the function as it was; from
the new block it leads back to the source. -/
theorem SplitOf.walk (h : f.SplitOf g source target) (hl : f.Linked)
    (he : f.HasEdge source target) {b : BlockId} {trail : List BlockId}
    (hw : g.Walk b trail) : f.Walk (if b = f.blocks.length then source else b)
      (trail.filter (· ≠ (f.blocks.length : Int))) := by
  induction hw with
  | start =>
      obtain ⟨eb, heb, -⟩ := hl.entry
      have hne := ne_length_of_block? heb
      rw [h.header.entry, if_neg hne,
        List.filter_cons_of_pos (by simpa using hne), List.filter_nil]
      exact .start
  | @step p b trail hwalk hedge hhere ih =>
      rcases h.hasEdge_cases hedge with ⟨rfl, rfl⟩ | ⟨rfl, rfl⟩ | ⟨hedge, -⟩
      · -- out of the new block
        obtain ⟨tb, htb⟩ := hl.target_exists he
        have hne := ne_length_of_block? htb
        rw [if_pos rfl] at ih
        rw [if_neg hne, List.filter_cons_of_pos (by simpa using hne)]
        exact ih.step he (hasBlock_of_block? htb)
      · -- into the new block
        obtain ⟨sb, hsb, -⟩ := he
        rw [if_neg (ne_length_of_block? hsb)] at ih
        rw [if_pos rfl, List.filter_cons_of_neg (by simp)]
        exact ih
      · obtain ⟨bb, hbb⟩ := hl.target_exists hedge
        have hne := ne_length_of_block? hbb
        have hp : p ≠ (f.blocks.length : Int) := by
          obtain ⟨pb, hpb, -⟩ := hedge
          exact ne_length_of_block? hpb
        rw [if_neg hp] at ih
        rw [if_neg hne, List.filter_cons_of_pos (by simpa using hne)]
        exact ih.step hedge (hasBlock_of_block? hbb)

/-- A block that is reached was reached before. The new one stands for the
source of its edge. -/
theorem SplitOf.reachable (h : f.SplitOf g source target) (hl : f.Linked)
    (he : f.HasEdge source target) {b : BlockId} (hb : g.Reachable b) :
    f.Reachable (if b = f.blocks.length then source else b) := by
  obtain ⟨trail, hw⟩ := hb
  exact ⟨_, h.walk hl he hw⟩

/-- What dominated a block still does, by taking each walk back to one before
the split. -/
theorem SplitOf.dominates (h : f.SplitOf g source target) (hl : f.Linked)
    (he : f.HasEdge source target) {c b : BlockId}
    (hd : f.Dominates c (if b = f.blocks.length then source else b)) :
    g.Dominates c b := by
  intro trail hw
  exact (List.mem_filter.mp (hd _ (h.walk hl he hw))).1

-- ============================================================== strictness

/-- Values are available at the end of a block as they were. -/
theorem SplitOf.availableOut (h : f.SplitOf g source target) (hl : f.Linked)
    (he : f.HasEdge source target) {b : BlockId} {v : ValueId}
    (hv : f.AvailableOut (if b = f.blocks.length then source else b) v) :
    g.AvailableOut b v := by
  rcases hv with hp | ⟨c, i, hdef, hdom⟩
  · exact Or.inl (by rw [h.header.params]; exact hp)
  · exact Or.inr ⟨c, i, h.definedAt_iff.mpr hdef, h.dominates hl he hdom⟩

/-- And so they are within the blocks from before. -/
theorem SplitOf.availableAt (h : f.SplitOf g source target) (hl : f.Linked)
    (he : f.HasEdge source target) {b : BlockId}
    (hb : b ≠ f.blocks.length) {j : Nat} {v : ValueId}
    (hv : f.AvailableAt b j v) : g.AvailableAt b j v := by
  rcases hv with hp | ⟨c, i, hdef, hij | ⟨hne, hdom⟩⟩
  · exact Or.inl (by rw [h.header.params]; exact hp)
  · exact Or.inr ⟨c, i, h.definedAt_iff.mpr hdef, Or.inl hij⟩
  · exact Or.inr ⟨c, i, h.definedAt_iff.mpr hdef,
      Or.inr ⟨hne, h.dominates hl he (by rwa [if_neg hb])⟩⟩

/-- A phi of the split function comes from one of the function as it was, whose
sources are the same but for the new block in the place of the source of the
edge. -/
theorem SplitOf.phi_cases (h : f.SplitOf g source target)
    {b : BlockId} {blk : Block} (hb : g.block? b = some blk) {d : ValueId}
    {t : Ty} {ss : List PhiSource} (hphi : .phi d t ss ∈ blk.instrs) :
    ∃ blk₀ ss₀, f.block? b = some blk₀ ∧ .phi d t ss₀ ∈ blk₀.instrs
      ∧ ss = ss₀.map fun s =>
        if b = target ∧ s.block
            = source then { s with block := f.blocks.length } else s := by
  rcases h.block?_cases hb with ⟨rfl, rfl⟩ | ⟨blk₀, hb₀, rfl⟩
  · simp [midBlock] at hphi
  · obtain ⟨j, hj, hjphi⟩ := mem_instrs_splitBlock.mp hphi
    split at hjphi
    · next hbt =>
      obtain ⟨ss₀, rfl, rfl⟩ := renameSource_eq_phi.mp hjphi
      exact ⟨blk₀, ss₀, hb₀, hj, by simp [hbt]⟩
    · next hbt =>
      subst hjphi
      exact ⟨blk₀, ss, hb₀, hj, by simp [hbt]⟩

/-- Every read still comes behind its definition. A phi's read moves to the end
of the new block, and its value is available there. -/
theorem SplitOf.strict (h : f.SplitOf g source target) (hl : f.Linked)
    (he : f.HasEdge source target) (hs : f.Strict) : g.Strict := by
  have hreach {b : BlockId} {blk : Block} (hb : f.block? b = some blk)
      (hr : g.Reachable b) :
      f.Reachable b := by
    have := h.reachable hl he hr
    rwa [if_neg (ne_length_of_block? hb)] at this
  refine ⟨fun b blk hb hr j ins hj hphi v hv => ?_,
    fun b blk hb hr d t ss hphi s hs' hsr v hv => ?_,
    fun b blk hb hr v hv => ?_⟩
  · rcases h.block?_cases hb with ⟨rfl, rfl⟩ | ⟨blk₀, hb₀, rfl⟩
    · simp [midBlock] at hj
    · rw [getElem?_splitBlock] at hj
      obtain ⟨ins₀, hins₀, hj⟩ := Option.map_eq_some_iff.mp hj
      have hphi₀ : ins₀.isPhi = false := by
        rw [← hphi, ← hj]
        split
        · rw [isPhi_renameSource]
        · rfl
      have hins : ins = ins₀ := by
        rw [← hj]
        split
        · exact renameSource_of_not_phi hphi₀
        · rfl
      subst hins
      exact h.availableAt hl he (ne_length_of_block? hb₀)
        (hs.instr b blk₀ hb₀ (hreach hb₀ hr) j ins hins₀ hphi₀ v hv)
  · obtain ⟨blk₀, ss₀, hb₀, hphi₀, rfl⟩ := h.phi_cases hb hphi
    obtain ⟨s₀, hs₀, rfl⟩ := List.mem_map.mp hs'
    obtain ⟨sb, hsb, -⟩ := hl.source b blk₀ hb₀ d t ss₀ hphi₀ s₀ hs₀
    have hout := hs.phi b blk₀ hb₀ (hreach hb₀ hr) d t ss₀ hphi₀ s₀ hs₀
    split at hsr
    · next hbs =>
      rw [if_pos hbs] at hv ⊢
      have hsr := h.reachable hl he hsr
      rw [if_pos rfl, ← hbs.2] at hsr
      refine h.availableOut hl he ?_
      rw [if_pos rfl, ← hbs.2]
      exact hout hsr v hv
    · next hbs =>
      rw [if_neg hbs] at hv ⊢
      refine h.availableOut hl he ?_
      rw [if_neg (ne_length_of_block? hsb)]
      exact hout (hreach hsb hsr) v hv
  · rcases h.block?_cases hb with ⟨rfl, rfl⟩ | ⟨blk₀, hb₀, rfl⟩
    · simp [midBlock, usesOf, Terminator.uses, Terminator.operands,
        Operand.ids] at hv
    · rw [usesOf_splitBlock] at hv
      refine h.availableOut hl he ?_
      rw [if_neg (ne_length_of_block? hb₀)]
      exact hs.term b blk₀ hb₀ (hreach hb₀ hr) v hv

end MirBackend.Func
