/-
Functions whose edges are all listed.

Splitting an edge strikes the source from the predecessors of the target once.
If it was listed twice, one listing stays and the function is no longer valid.
`Func.Linked` is what survives: every edge is listed, though not every listing
need be an edge. That is enough for a walk over the graph never to fail, and
for splitting any edge to keep it (`SplitOf.linked`).

A split changes neither how many successors nor how many predecessors a block
has (`SplitOf.clear_iff`), so an edge that is not critical stays so while
others are split.
-/
import Mathlib
import MirBackend.Proofs.Func.Instrs

namespace MirBackend.Func

/-- Every edge leads to a block that lists it, and phis name blocks that jump to
them. -/
structure Linked (f : Func) : Prop where
  full : ∀ o ∈ f.blocks, o.isSome = true
  entry : ∃ blk, f.block? f.entry = some blk ∧ ∀ i ∈ blk.instrs, i.isPhi = false
  target : ∀ b blk, f.block? b = some blk → ∀ s ∈ blk.targets,
    ∃ sb, f.block? s = some sb ∧ b ∈ sb.preds
  predHere : ∀ b blk, f.block? b = some blk →
    ∀ p ∈ blk.preds, f.hasBlock p = true
  noHole : ∀ b blk, f.block? b = some blk → Instr.missing ∉ blk.instrs
  phisLead : ∀ b blk, f.block? b = some blk → PhisLead blk.instrs
  source : ∀ b blk, f.block? b = some blk →
    ∀ d t ss, Instr.phi d t ss ∈ blk.instrs →
    ∀ s ∈ ss, f.HasEdge s.block b

variable {f g : Func} {source target : BlockId}

/-- A well-formed function is linked. -/
theorem WellFormed.linked (h : f.WellFormed) : f.Linked := by
  refine ⟨h.full, h.entry, fun b blk hb => (h.blockOk b blk hb).target,
    fun b blk hb p hp => ?_,
    fun b blk hb => (h.blockOk b blk hb).noHole,
    fun b blk hb => (h.blockOk b blk hb).phisLead,
    fun b blk hb d t ss hphi s hs => ?_⟩
  · obtain ⟨pb, hpb, -⟩ := (h.blockOk b blk hb).pred p hp
    exact hasBlock_of_block? hpb
  · have hok := h.blockOk b blk hb
    exact hok.pred _ (hok.source d t ss hphi s hs)

namespace Linked

/-- In a linked function all blocks are there. -/
theorem present (h : f.Linked) : ∃ bs, f.present = .ok bs
    ∧ f.blocks = bs.map some :=
  present_of_full h.full

/-- A block behind an edge lists it. -/
theorem mem_preds (h : f.Linked) {p b : BlockId} {blk : Block}
    (he : f.HasEdge p b) (hb : f.block? b = some blk) : p ∈ blk.preds := by
  obtain ⟨pb, hpb, hbt⟩ := he
  obtain ⟨sb, hsb, hp⟩ := h.target p pb hpb b hbt
  rw [hb, Option.some.injEq] at hsb
  exact hsb ▸ hp

/-- The target of an edge is there. -/
theorem target_exists (h : f.Linked) {p b : BlockId} (he : f.HasEdge p b) :
    ∃ blk, f.block? b = some blk := by
  obtain ⟨pb, hpb, hbt⟩ := he
  obtain ⟨sb, hsb, -⟩ := h.target p pb hpb b hbt
  exact ⟨sb, hsb⟩

/-- The number of a new block is listed nowhere. -/
theorem length_not_mem_preds (h : f.Linked) {b : BlockId} {blk : Block}
    (hb : f.block? b = some blk) : (f.blocks.length : Int) ∉ blk.preds := by
  intro hm
  obtain ⟨i, hi, hlt⟩ := hasBlock_iff.mp (h.predHere b blk hb _ hm)
  rw [Nat.cast_inj] at hi
  omega

/-- The number of a new block is no target. -/
theorem length_not_mem_targets (h : f.Linked) {b : BlockId} {blk : Block}
    (hb : f.block? b = some blk) : (f.blocks.length : Int) ∉ blk.targets := by
  intro hm
  obtain ⟨sb, hsb, -⟩ := h.target b blk hb _ hm
  rw [f.block?_length] at hsb
  cases hsb

end Linked

-- ========================================================== a split keeps it

/-- Listings after a split, whether or not some are repeated. -/
theorem mem_preds_splitBlock_of_ne {mid c p : BlockId} {blk : Block}
    (hp : p ∈ blk.preds) (hne : ¬(c = target ∧ p = source)) :
    p ∈ (splitBlock source target mid c blk).preds := by
  simp only [splitBlock]
  split
  · next hc =>
    rw [mem_listed]
    exact Or.inl ((List.mem_erase_of_ne fun hps => hne ⟨hc, hps⟩).mpr hp)
  · exact hp

/-- The block put on an edge precedes the edge's target. -/
theorem mid_mem_preds_splitBlock {mid : BlockId} {blk : Block} :
    mid ∈ (splitBlock source target mid target blk).preds := by
  simp [splitBlock, mem_listed]

/-- Where a listing after a split comes from. -/
theorem of_mem_preds_splitBlock {mid c p : BlockId} {blk : Block}
    (hp : p ∈ (splitBlock source target mid c blk).preds) :
    p ∈ blk.preds ∨ p = mid := by
  simp only [splitBlock] at hp
  split at hp
  · rcases mem_listed.mp hp with hp | hp
    · exact Or.inl (List.mem_of_mem_erase hp)
    · exact Or.inr hp
  · exact Or.inl hp

/-- Numbers in use stay in use. -/
theorem SplitOf.hasBlock (h : f.SplitOf g source target) {b : BlockId}
    (hb : f.hasBlock b = true) : g.hasBlock b = true := by
  obtain ⟨i, rfl, hi⟩ := hasBlock_iff.mp hb
  exact hasBlock_iff.mpr ⟨i, rfl, by rw [h.length]; omega⟩

/-- The new edges of a split. -/
theorem SplitOf.hasEdge_mid (h : f.SplitOf g source target)
    (he : f.HasEdge source target) :
    g.HasEdge source f.blocks.length ∧ g.HasEdge f.blocks.length target := by
  obtain ⟨sb, hsb, hts⟩ := he
  refine ⟨⟨_, h.block?_old hsb, ?_⟩, ⟨_, h.block?_mid, by simp⟩⟩
  exact mem_targets_splitBlock.mpr ⟨target, hts, if_pos ⟨rfl, rfl⟩⟩

/-- Splitting an edge keeps all edges listed. -/
theorem SplitOf.linked (hg : f.SplitOf g source target) (h : f.Linked)
    (he : f.HasEdge source target) : g.Linked := by
  obtain ⟨tb, htb⟩ := h.target_exists he
  have hlen : g.hasBlock f.blocks.length = true :=
    hasBlock_iff.mpr ⟨_, rfl, by rw [hg.length]; omega⟩
  refine ⟨full_iff.mpr fun i hi => ?_, ?_, fun b blk hb s hs => ?_,
    fun b blk hb p hp => ?_,
    fun b blk hb hm => ?_, fun b blk hb => ?_,
    fun b blk hb d t ss hphi s hs => ?_⟩
  · rw [hg.length] at hi
    rcases Nat.lt_succ_iff_lt_or_eq.mp hi with hi | rfl
    · obtain ⟨blk, hblk⟩ := full_iff.mp h.full i hi
      exact ⟨_, hg.block?_old hblk⟩
    · exact ⟨_, hg.block?_mid⟩
  · obtain ⟨eb, heb, hphi⟩ := h.entry
    refine ⟨_, by rw [hg.header.entry]; exact hg.block?_old heb, fun i hi => ?_⟩
    obtain ⟨j, hj, rfl⟩ := mem_instrs_splitBlock.mp hi
    split
    · rw [isPhi_renameSource]
      exact hphi j hj
    · exact hphi j hj
  · rcases hg.block?_cases hb with ⟨rfl, rfl⟩ | ⟨blk₀, hb₀, rfl⟩
    · rw [midBlock_targets, List.mem_singleton] at hs
      subst hs
      exact ⟨_, hg.block?_old htb, mid_mem_preds_splitBlock⟩
    · obtain ⟨u, hu, rfl⟩ := mem_targets_splitBlock.mp hs
      split
      · next hcu => exact ⟨_, hg.block?_mid, by simp [hcu.1]⟩
      · next hcu =>
        obtain ⟨ub, hub, hpu⟩ := h.target b blk₀ hb₀ u hu
        exact ⟨_, hg.block?_old hub,
          mem_preds_splitBlock_of_ne hpu fun hx => hcu ⟨hx.2, hx.1⟩⟩
  · rcases hg.block?_cases hb with ⟨rfl, rfl⟩ | ⟨blk₀, hb₀, rfl⟩
    · rw [midBlock_preds, List.mem_singleton] at hp
      obtain ⟨sb, hsb, -⟩ := he
      exact hp ▸ hg.hasBlock (hasBlock_of_block? hsb)
    · rcases of_mem_preds_splitBlock hp with hp | rfl
      · exact hg.hasBlock (h.predHere b blk₀ hb₀ p hp)
      · exact hlen
  · rcases hg.block?_cases hb with ⟨rfl, rfl⟩ | ⟨blk₀, hb₀, rfl⟩
    · simp [midBlock] at hm
    · obtain ⟨j, hj, hjm⟩ := mem_instrs_splitBlock.mp hm
      split at hjm
      · exact h.noHole b blk₀ hb₀ (renameSource_eq_missing.mp hjm ▸ hj)
      · exact h.noHole b blk₀ hb₀ (hjm ▸ hj)
  · rcases hg.block?_cases hb with ⟨rfl, rfl⟩ | ⟨blk₀, hb₀, rfl⟩
    · exact List.Pairwise.nil
    · simp only [splitBlock]
      split
      · exact phisLead_renameSource (h.phisLead b blk₀ hb₀)
      · exact h.phisLead b blk₀ hb₀
  · rcases hg.block?_cases hb with ⟨rfl, rfl⟩ | ⟨blk₀, hb₀, rfl⟩
    · simp [midBlock] at hphi
    · obtain ⟨j, hj, hjphi⟩ := mem_instrs_splitBlock.mp hphi
      split at hjphi
      · next hbt =>
        obtain ⟨ss₀, rfl, rfl⟩ := renameSource_eq_phi.mp hjphi
        obtain ⟨s₀, hs₀, rfl⟩ := List.mem_map.mp hs
        split
        · exact hbt ▸ (hg.hasEdge_mid he).2
        · next hsrc =>
            exact hg.hasEdge (h.source b blk₀ hb₀ d t ss₀ hj s₀ hs₀)
              fun hx => hsrc hx.1
      · next hbt =>
        subst hjphi
        exact hg.hasEdge (h.source b blk₀ hb₀ d t ss hj s hs) fun hx => hbt hx.2

-- ========================================================= edges with room

/-- Code for the edge has a place of its own: its source has no other successor,
or its target no other predecessor. -/
def Clear (f : Func) (p b : BlockId) : Prop :=
  ∀ pb bb, f.block? p = some pb → f.block? b = some bb →
    pb.targets.length ≤ 1 ∨ bb.preds.length ≤ 1

/-- A split leaves the number of successors of a block. -/
theorem length_targets_splitBlock {mid c : BlockId} {blk : Block}
    (hmid : mid ∉ blk.targets) :
    (splitBlock source target mid c blk).targets.length
      = blk.targets.length := by
  have hpair (x y : BlockId) (hx : mid ≠ x) (hy : mid ≠ y) :
      (if (if x = target then mid else x) = (if y = target then mid else y)
        then [if x = target then mid else x]
        else [if x = target then mid else x,
          if y = target then mid else y]).length
      = (if x = y then [x] else [x, y]).length := by
    by_cases hxy : x = y
    · simp [hxy]
    · have hne : (if x = target then mid else x)
          ≠ (if y = target then mid else y) := by
        split <;> split
        · next h1 h2 => exact absurd (h1.trans h2.symm) hxy
        · exact hy
        · exact hx.symm
        · exact hxy
      simp [hxy, hne]
  have hmem (x y : BlockId) (hm : mid ∉ (if x = y then [x] else [x, y])) :
      mid ≠ x ∧ mid ≠ y := by
    split at hm
    · next hxy => simpa [← hxy] using hm
    · simpa using hm
  by_cases hc : c = source
  · simp only [Block.targets, splitBlock, hc, if_true] at hmid ⊢
    cases ht : blk.term with
    | none => rfl
    | some t =>
        rw [ht] at hmid
        cases t with
        | jump x => rfl
        | branch a x y =>
            obtain ⟨hx, hy⟩ := hmem x y hmid
            exact hpair x y hx hy
        | branchCmp op l r x y =>
            obtain ⟨hx, hy⟩ := hmem x y hmid
            exact hpair x y hx hy
        | ret vs => rfl
        | unreachable => rfl
  · simp [Block.targets, splitBlock, hc]

/-- A split leaves the number of predecessors of a block. -/
theorem length_preds_splitBlock {mid c : BlockId} {blk : Block}
    (hmid : mid ∉ blk.preds) (hs : c = target → source ∈ blk.preds) :
    (splitBlock source target mid c blk).preds.length = blk.preds.length := by
  simp only [splitBlock]
  split
  · next hc =>
    have hsrc := hs hc
    have hpos := List.length_pos_of_mem hsrc
    rw [listed, if_neg fun hm => hmid (List.mem_of_mem_erase hm),
      List.length_append, List.length_erase_of_mem hsrc, List.length_singleton]
    omega
  · rfl

/-- A split leaves the room of the edges between blocks that were there. -/
theorem SplitOf.clear_iff (hg : f.SplitOf g source target) (h : f.Linked)
    (he : f.HasEdge source target) {p b : BlockId} (hp : f.hasBlock p = true)
    (hb : f.hasBlock b = true) : g.Clear p b ↔ f.Clear p b := by
  obtain ⟨pb, hpb⟩ := block?_of_hasBlock h.full hp
  obtain ⟨bb, hbb⟩ := block?_of_hasBlock h.full hb
  have hlt : (splitBlock source target f.blocks.length p pb).targets.length
      = pb.targets.length :=
    length_targets_splitBlock (h.length_not_mem_targets hpb)
  have hlp : (splitBlock source target f.blocks.length b bb).preds.length
      = bb.preds.length :=
    length_preds_splitBlock (h.length_not_mem_preds hbb) fun hbt => by
      subst hbt
      exact h.mem_preds he hbb
  constructor
  · intro hc pb' bb' hpb' hbb'
    rw [hpb, Option.some.injEq] at hpb'
    rw [hbb, Option.some.injEq] at hbb'
    subst hpb' hbb'
    have := hc _ _ (hg.block?_old hpb) (hg.block?_old hbb)
    rwa [hlt, hlp] at this
  · intro hc pb' bb' hpb' hbb'
    rw [hg.block?_old hpb, Option.some.injEq] at hpb'
    rw [hg.block?_old hbb, Option.some.injEq] at hbb'
    subst hpb' hbb'
    rw [hlt, hlp]
    exact hc pb bb hpb hbb

/-- The edge out of a new block has room. -/
theorem SplitOf.clear_mid (hg : f.SplitOf g source target) (b : BlockId) :
    g.Clear f.blocks.length b := by
  intro pb bb hpb _
  rw [hg.block?_mid, Option.some.injEq] at hpb
  subst hpb
  exact Or.inl (Nat.le_refl _)

end MirBackend.Func
