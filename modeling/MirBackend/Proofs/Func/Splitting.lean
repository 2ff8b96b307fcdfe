/-
Splitting edges.

Splitting the edge from `source` to `target` adds one block and changes two:
the terminator of the source names the new block, the target lists the new
block in place of the source, and the phis of the target follow
(`splitBlock`). Structure and distinct predecessors survive
(`splitEdge_wellFormed`). Since an edge other than the one split is still an
edge afterwards, any list of different edges can be split one by one
(`splitAll_wellFormed`), in particular the critical ones.
-/
import Mathlib
import MirBackend.Proofs.Func.Edges

namespace MirBackend

-- ========================================================= renamed sources

namespace Func

variable {old new : BlockId}

-- What kind of instruction is renamed does not change.
@[simp] theorem isPhi_renameSource (i : Instr) :
    (renameSource old new i).isPhi = i.isPhi := by
  cases i <;> rfl

theorem renameSource_eq_missing {i : Instr} : renameSource old new i = .missing
    ↔ i = .missing := by
  cases i <;> simp [renameSource]

/-- A phi after renaming comes from a phi of the same value. -/
theorem renameSource_eq_phi {i : Instr} {d : ValueId} {t : Ty}
    {ss : List PhiSource} :
    renameSource old new i = .phi d t ss
      ↔ ∃ ss₀, i = .phi d t ss₀
        ∧ ss = ss₀.map fun s => if s.block
        = old then { s with block := new } else s := by
  cases i with
  | phi d₀ t₀ ss₀ =>
      simp only [renameSource, Instr.phi.injEq]
      constructor
      · rintro ⟨rfl, rfl, rfl⟩
        exact ⟨ss₀, ⟨rfl, rfl, rfl⟩, rfl⟩
      · rintro ⟨ss₁, ⟨rfl, rfl, rfl⟩, rfl⟩
        exact ⟨rfl, rfl, rfl⟩
  | _ => simp [renameSource]

/-- Phis lead a block after renaming if they did before. -/
theorem phisLead_renameSource {is : List Instr} (h : PhisLead is) :
    PhisLead (is.map (renameSource old new)) := by
  rw [PhisLead, List.pairwise_map]
  refine h.imp fun {i j} hij => ?_
  rw [isPhi_renameSource, isPhi_renameSource]
  exact hij

-- ============================================================== one edge

/-- An edge, by what the terminators say. -/
def HasEdge (f : Func) (p b : BlockId) : Prop :=
  ∃ pb, f.block? p = some pb ∧ b ∈ pb.targets

/-- Other predecessor lists leave the edges. -/
theorem Listing.hasEdge {f g : Func} {ps : BlockId → List BlockId}
    (h : f.Listing g ps) {p b : BlockId} : g.HasEdge p b ↔ f.HasEdge p b := by
  simp only [HasEdge, h.block, Option.map_eq_some_iff]
  constructor
  · rintro ⟨-, ⟨pb, hpb, rfl⟩, hb⟩
    exact ⟨pb, hpb, hb⟩
  · rintro ⟨pb, hpb, hb⟩
    exact ⟨_, ⟨pb, hpb, rfl⟩, hb⟩

/-- The block put on a split edge. -/
def midBlock (source target : BlockId) : Block :=
  { name := splitName source target, term := some (.jump target), preds := [source],
    filled := true, closed := true }

/-- A block of the function, after the edge from `source` to `target` was split
by `mid`. -/
def splitBlock (source target mid c : BlockId) (b : Block) : Block :=
  { b with
    term := if c = source then b.term.map (·.redirect target mid) else b.term
    preds := if c = target then listed mid (b.preds.erase source) else b.preds
    instrs :=
      if c = target then b.instrs.map (renameSource source mid) else b.instrs }

/-- What splitting an edge makes of a function. -/
structure SplitOf (f g : Func) (source target : BlockId) : Prop where
  header : f.SameHeader g
  length : g.blocks.length = f.blocks.length + 1
  block : ∀ c, g.block? c =
    if c = f.blocks.length then some (midBlock source target)
    else (f.block? c).map (splitBlock source target f.blocks.length c)

variable {f g : Func} {source target : BlockId}

/-- Splitting an edge between two blocks that are there. -/
theorem splitEdge_splitOf {sb tb : Block} (hs : f.block? source = some sb)
    (ht : f.block? target = some tb) :
    ∃ g, f.splitEdge source target = .ok ((f.blocks.length : Int), g)
      ∧ f.SplitOf g source target := by
  have hmid : f.block? f.blocks.length = none := f.block?_length
  have hsne : source ≠ (f.blocks.length : Int) := by
    rintro rfl
    rw [hmid] at hs
    cases hs
  have htne : target ≠ (f.blocks.length : Int) := by
    rintro rfl
    rw [hmid] at ht
    cases ht
  -- the new block is added behind the others
  obtain ⟨f₁, hf₁⟩ : ∃ f₁ : Func, f₁ = { f with blocks := f.blocks ++ [some
      { name := splitName source target, term := some (.jump target), filled := true,
        closed := true }] } := ⟨_, rfl⟩
  have hb₁ (c : BlockId) : f₁.block? c = if c = f.blocks.length then
      some { midBlock source target with preds := [] } else f.block? c := by
    rw [hf₁, block?_append]
    rfl
  -- the terminator of the source goes there
  obtain ⟨f₂, hf₂⟩ : ∃ f₂, f₂ = f₁.modifyBlock source fun b =>
      { b with term := b.term.map (·.redirect target f.blocks.length) } :=
        ⟨_, rfl⟩
  have hup : f₁.updateBlock source (fun b =>
      { b with term := b.term.map (·.redirect target f.blocks.length) })
      = .ok f₂ := by
    rw [hf₂]
    exact updateBlock_of_block? (by rw [hb₁, if_neg hsne]; exact hs)
  have hb₂ (c : BlockId) : f₂.block? c = if c = f.blocks.length then
      some { midBlock source target with preds := [] }
      else (f.block? c).map fun b => { b with
        term := if c = source then b.term.map
          (·.redirect target f.blocks.length) else b.term } := by
    rw [hf₂, block?_modifyBlock, hb₁]
    by_cases hc : c = f.blocks.length
    · have hcs : c ≠ source := fun h => hsne (h ▸ hc)
      rw [if_pos hc, if_neg hcs, if_pos hc]
    · rw [if_neg hc, if_neg hc]
      split <;> cases f.block? c <;> rfl
  -- the three edits of predecessor lists, on the table
  have htgt : ∃ b, f₂.block? target = some b := by
    rw [hb₂, if_neg htne, ht]
    exact ⟨_, rfl⟩
  have hnew : ∃ b, f₂.block? f.blocks.length = some b := by
    rw [hb₂, if_pos rfl]
    exact ⟨_, rfl⟩
  obtain ⟨f₃, hf₃, hl₃⟩ := (Listing.refl f₂).disconnect (s := source) htgt
  obtain ⟨f₄, hf₄, hl₄⟩ := hl₃.connect (s := source) hnew
  obtain ⟨f₅, hf₅, hl₅⟩ := hl₄.connect (s := (f.blocks.length : Int)) htgt
  refine ⟨f₅.modifyBlock target fun b =>
    { b with instrs := b.instrs.map (renameSource source f.blocks.length) }, ?_,
    ?_, ?_, ?_⟩
  · unfold splitEdge redirectEdge
    dsimp only
    rw [← hf₁, hup, ok_bind, hf₃, ok_bind, hf₄, ok_bind, hf₅]
    rfl
  · have hh : f.SameHeader f₂ := by
      refine SameHeader.trans (g := f₁) ?_
        (hf₂ ▸ sameHeader_modifyBlock f₁ source _)
      rw [hf₁]
      exact ⟨rfl, rfl, rfl, rfl, rfl, rfl⟩
    exact (hh.trans hl₅.header).trans (sameHeader_modifyBlock _ _ _)
  · rw [length_modifyBlock, hl₅.length, hf₂, length_modifyBlock, hf₁]
    simp
  · intro c
    rw [block?_modifyBlock, hl₅.block c, hb₂]
    by_cases hcm : c = f.blocks.length
    · have hct : c ≠ target := fun h => htne (h ▸ hcm)
      rw [if_neg hct, if_pos hcm, if_pos hcm, Function.update_of_ne hct, hcm,
        Function.update_self, Function.update_of_ne fun h => htne h.symm,
        predTable_of_block? (by rw [hb₂, if_pos rfl])]
      rfl
    · rw [if_neg hcm, if_neg hcm]
      by_cases hct : c = target
      · subst hct
        rw [if_pos rfl, ht, Function.update_self, Function.update_of_ne hcm,
          Function.update_self,
          predTable_of_block? (by rw [hb₂, if_neg hcm, ht]; rfl)]
        simp only [Option.map_some, Block.withPreds, splitBlock, if_pos]
      · rw [if_neg hct, Function.update_of_ne hct, Function.update_of_ne hcm,
          Function.update_of_ne hct]
        cases hfc : f.block? c with
        | none => rfl
        | some b =>
            rw [predTable_of_block? (by rw [hb₂, if_neg hcm, hfc]; rfl)]
            simp only [Option.map_some, Block.withPreds, splitBlock, if_neg hct]

namespace SplitOf

/-- The new block. -/
theorem block?_mid (h : f.SplitOf g source target) :
    g.block? f.blocks.length = some (midBlock source target) := by
  rw [h.block, if_pos rfl]

/-- A block that was there before. -/
theorem block?_old (h : f.SplitOf g source target) {c : BlockId} {blk : Block}
    (hc : f.block? c = some blk) :
    g.block? c = some (splitBlock source target f.blocks.length c blk) := by
  have hne : c ≠ (f.blocks.length : Int) := by
    rintro rfl
    rw [f.block?_length] at hc
    cases hc
  rw [h.block, if_neg hne, hc]
  rfl

/-- Every block is the new one or was there before. -/
theorem block?_cases (h : f.SplitOf g source target) {c : BlockId} {blk : Block}
    (hc : g.block? c = some blk) :
    (c = f.blocks.length ∧ blk = midBlock source target)
      ∨ ∃ blk₀, f.block? c = some blk₀ ∧ blk
      = splitBlock source target f.blocks.length c blk₀ := by
  rw [h.block] at hc
  split at hc
  · next hcm =>
    cases hc
    exact Or.inl ⟨hcm, rfl⟩
  · obtain ⟨blk₀, hblk₀, rfl⟩ := Option.map_eq_some_iff.mp hc
    exact Or.inr ⟨blk₀, hblk₀, rfl⟩

end SplitOf

@[simp] theorem midBlock_targets :
    (midBlock source target).targets = [target] := rfl

@[simp] theorem midBlock_preds :
    (midBlock source target).preds = [source] := rfl

/-- The targets of a block after a split: the source goes to the new block
instead. -/
theorem mem_targets_splitBlock {mid c s : BlockId} {blk : Block} :
    s ∈ (splitBlock source target mid c blk).targets
      ↔ ∃ u ∈ blk.targets, (if c = source ∧ u = target then mid else u)
      = s := by
  by_cases hc : c = source
  · subst hc
    simp only [Block.targets, splitBlock, if_true, true_and]
    cases blk.term with
    | none => simp [targetsOf]
    | some t => exact Terminator.mem_targets_mapTargets
  · simp [Block.targets, splitBlock, hc]

/-- The predecessors of a block after a split: the target lists the new block
instead. -/
theorem mem_preds_splitBlock {mid c p : BlockId} {blk : Block}
    (hnd : blk.preds.Nodup) : p ∈ (splitBlock source target mid c blk).preds
      ↔ (p ∈ blk.preds ∧ ¬(c = target ∧ p = source))
      ∨ (c = target ∧ p = mid) := by
  by_cases hc : c = target
  · subst hc
    simp only [splitBlock, if_true, true_and, mem_listed, hnd.mem_erase_iff]
    exact or_congr and_comm Iff.rfl
  · simp [splitBlock, hc]

/-- Splitting leaves every other edge. -/
theorem SplitOf.hasEdge (h : f.SplitOf g source target) {p b : BlockId}
    (hpb : f.HasEdge p b) (hne : ¬(p = source ∧ b = target)) :
    g.HasEdge p b := by
  obtain ⟨pb, hp, hb⟩ := hpb
  refine ⟨_, h.block?_old hp, mem_targets_splitBlock.mpr ⟨b, hb, ?_⟩⟩
  rw [if_neg hne]

-- ======================================================== structure is kept

/-- No place is vacant when every number below the length is that of a block. -/
theorem full_iff {f : Func} : (∀ o ∈ f.blocks, o.isSome = true)
    ↔ ∀ i < f.blocks.length, ∃ blk, f.block? (i : Nat) = some blk := by
  constructor
  · intro h i hi
    exact block?_of_hasBlock h (hasBlock_iff.mpr ⟨i, rfl, hi⟩)
  · intro h o ho
    obtain ⟨i, hi⟩ := List.mem_iff_getElem?.mp ho
    obtain ⟨blk, hblk⟩ := h i (List.getElem?_eq_some_iff.mp hi).1
    rw [block?_natCast, hi] at hblk
    rw [Option.isSome_iff_exists]
    exact ⟨blk, by simpa using hblk⟩

/-- The instructions of a block that a split changed, one by one. -/
theorem mem_instrs_splitBlock {mid c : BlockId} {blk : Block} {i : Instr} :
    i ∈ (splitBlock source target mid c blk).instrs
      ↔ ∃ j ∈ blk.instrs, (if c = target then renameSource source mid j else j)
      = i := by
  by_cases hc : c = target
  · simp [splitBlock, hc]
  · simp [splitBlock, hc]

/-- A block that was there before keeps its structure. -/
private theorem splitBlock_ok (h : f.WellFormed) (hd : f.PredsDistinct)
    (hg : f.SplitOf g source target) {c : BlockId} {blk : Block}
    (hc : f.block? c = some blk) :
    g.BlockOk c (splitBlock source target f.blocks.length c blk) := by
  have hok := h.blockOk c blk hc
  have hcm : c ≠ (f.blocks.length : Int) := by
    rintro rfl
    rw [f.block?_length] at hc
    cases hc
  refine ⟨?_, fun s hs => ?_, fun p hp => ?_, fun hm => ?_, ?_,
    fun d t ss hphi s hs => ?_⟩
  · simp only [splitBlock]
    split
    · simpa using hok.term
    · exact hok.term
  · obtain ⟨u, hu, rfl⟩ := mem_targets_splitBlock.mp hs
    split
    · next hcu => exact ⟨_, hg.block?_mid, by simp [hcu.1]⟩
    · next hcu =>
      obtain ⟨ub, hub, hcub⟩ := hok.target u hu
      refine ⟨_, hg.block?_old hub,
        (mem_preds_splitBlock (hd u ub hub)).mpr (Or.inl ⟨hcub, ?_⟩)⟩
      exact fun hx => hcu ⟨hx.2, hx.1⟩
  · rcases (mem_preds_splitBlock (hd c blk hc)).mp hp
      with ⟨hp, hne⟩ | ⟨rfl, rfl⟩
    · obtain ⟨pb, hpb, hct⟩ := hok.pred p hp
      refine ⟨_, hg.block?_old hpb, mem_targets_splitBlock.mpr ⟨c, hct, ?_⟩⟩
      rw [if_neg fun hx => hne ⟨hx.2, hx.1⟩]
    · exact ⟨_, hg.block?_mid, by simp⟩
  · obtain ⟨j, hj, hjm⟩ := mem_instrs_splitBlock.mp hm
    split at hjm
    · exact hok.noHole (renameSource_eq_missing.mp hjm ▸ hj)
    · exact hok.noHole (hjm ▸ hj)
  · simp only [splitBlock]
    split
    · exact phisLead_renameSource hok.phisLead
    · exact hok.phisLead
  · rw [mem_preds_splitBlock (hd c blk hc)]
    obtain ⟨j, hj, hjphi⟩ := mem_instrs_splitBlock.mp hphi
    split at hjphi
    · next hct =>
      obtain ⟨ss₀, rfl, rfl⟩ := renameSource_eq_phi.mp hjphi
      obtain ⟨s₀, hs₀, rfl⟩ := List.mem_map.mp hs
      split
      · exact Or.inr ⟨hct, rfl⟩
      · next hsrc => exact Or.inl ⟨hok.source d t ss₀ hj s₀ hs₀,
          fun hx => hsrc hx.2⟩
    · next hct =>
      subst hjphi
      exact Or.inl ⟨hok.source d t ss hj s hs, fun hx => hct hx.1⟩

/-- Splitting an edge keeps structure and distinct predecessors. -/
theorem SplitOf.wellFormed (hg : f.SplitOf g source target) (h : f.WellFormed)
    (hd : f.PredsDistinct) (he : f.HasEdge source target) :
    g.WellFormed ∧ g.PredsDistinct := by
  obtain ⟨sb, hsb, htsb⟩ := he
  obtain ⟨tb, htb⟩ := h.target_exists hsb htsb
  refine ⟨⟨full_iff.mpr fun i hi => ?_, ?_, fun c blk hc => ?_⟩,
    fun c blk hc => ?_⟩
  · rw [hg.length] at hi
    rcases Nat.lt_succ_iff_lt_or_eq.mp hi with hi | rfl
    · obtain ⟨blk, hblk⟩ := full_iff.mp h.full i hi
      exact ⟨_, hg.block?_old hblk⟩
    · exact ⟨_, hg.block?_mid⟩
  · obtain ⟨eb, heb, hphi⟩ := h.entry
    refine ⟨_, by rw [hg.header.entry]; exact hg.block?_old heb, fun i hi => ?_⟩
    obtain ⟨j, hj, rfl⟩ := mem_instrs_splitBlock.mp hi
    split
    · rw [isPhi_renameSource]
      exact hphi j hj
    · exact hphi j hj
  · rcases hg.block?_cases hc with ⟨rfl, rfl⟩ | ⟨blk₀, hblk₀, rfl⟩
    · refine ⟨rfl, fun s hs => ?_, fun p hp => ?_, by simp [midBlock],
        List.Pairwise.nil, fun d t ss hphi => by simp [midBlock] at hphi⟩
      · rw [midBlock_targets, List.mem_singleton] at hs
        subst hs
        exact ⟨_, hg.block?_old htb,
          (mem_preds_splitBlock (hd s tb htb)).mpr (Or.inr ⟨rfl, rfl⟩)⟩
      · rw [midBlock_preds, List.mem_singleton] at hp
        subst hp
        refine ⟨_, hg.block?_old hsb,
          mem_targets_splitBlock.mpr ⟨target, htsb, ?_⟩⟩
        rw [if_pos ⟨rfl, rfl⟩]
    · exact splitBlock_ok h hd hg hblk₀
  · rcases hg.block?_cases hc with ⟨rfl, rfl⟩ | ⟨blk₀, hblk₀, rfl⟩
    · simp
    · simp only [splitBlock]
      split
      · exact listed_nodup ((hd c blk₀ hblk₀).erase source)
      · exact hd c blk₀ hblk₀

-- ========================================================== critical edges

/-- The edge leaves a block with several successors for one with several
predecessors. -/
def Critical (f : Func) (s t : BlockId) : Prop :=
  ∃ sb tb, f.block? s = some sb ∧ f.block? t = some tb ∧ t ∈ sb.targets
    ∧ 1 < sb.targets.length ∧ 1 < tb.preds.length

/-- A critical edge is an edge. -/
theorem Critical.hasEdge {s t : BlockId} (h : f.Critical s t) :
    f.HasEdge s t := by
  obtain ⟨sb, -, hsb, -, ht, -⟩ := h
  exact ⟨sb, hsb, ht⟩

/-- An edge is critical if its source has more targets and its target more
predecessors. -/
theorem isCritical_eq_ok {s t : BlockId} {sb tb : Block}
    (hs : f.block? s = some sb) (ht : f.block? t = some tb) :
    f.isCritical s t
        = .ok (decide (1 < sb.targets.length ∧ 1 < tb.preds.length)) := by
  simp only [isCritical, successors, block_eq_ok.mpr hs,
    block_eq_ok.mpr ht, ok_bind]
  by_cases h1 : 1 < sb.targets.length
  · simp only [pure_bind, gt_iff_lt, h1, if_true, true_and]
    rfl
  · simp only [pure_bind, gt_iff_lt, h1, if_false, false_and, decide_false]
    rfl

/-- The critical edges are found, each once. -/
theorem criticalEdges_eq_ok (h : f.WellFormed) :
    ∃ es, f.criticalEdges = .ok es ∧ es.Nodup
      ∧ ∀ e, e ∈ es ↔ f.Critical e.source e.target := by
  classical
  obtain ⟨bs, hbs, hblocks⟩ := h.present
  have hlen : f.blocks.length = bs.length := by rw [hblocks, List.length_map]
  let out : Nat → List Edge := fun i =>
    ((bs.getD i default).targets.filter fun t =>
    decide (f.Critical i t)).map fun t => ⟨i, t⟩
  -- what the loop answers for one block
  have hout : ∀ i ∈ List.range f.blocks.length, (do
      let succs ← f.successors i
      let edges ← succs.filterM fun t => f.isCritical i t
      return edges.map fun t => (⟨i, t⟩ : Edge) : Checked (List Edge))
        = .ok (out i) := by
    intro i hi
    rw [List.mem_range, hlen] at hi
    have hib : f.block? (i : Int) = some (bs.getD i default) := by
      rw [block?_of_blocks hblocks, List.getElem?_eq_getElem hi]
      simp [hi]
    -- each of its targets is there, so whether the edge is critical can be told
    have hcrit : ∀ t ∈ (bs.getD i default).targets,
        f.isCritical i t = .ok (decide (f.Critical i t)) := by
      intro t ht
      obtain ⟨tb, htb⟩ := h.target_exists hib ht
      rw [isCritical_eq_ok hib htb]
      congr 1
      rw [decide_eq_decide]
      constructor
      · rintro ⟨h1, h2⟩
        exact ⟨_, tb, hib, htb, ht, h1, h2⟩
      · rintro ⟨sb', tb', hsb', htb', -, h1, h2⟩
        rw [hib] at hsb'
        rw [htb] at htb'
        cases hsb'
        cases htb'
        exact ⟨h1, h2⟩
    simp only [successors, block_eq_ok.mpr hib, ok_bind, pure_bind]
    rw [filterM_eq_ok_filter hcrit]
    rfl
  refine ⟨((List.range f.blocks.length).map out).flatten, ?_, ?_, ?_⟩
  · unfold criticalEdges
    rw [mapM_eq_ok_map hout]
    rfl
  -- targets are distinct within a block, and sources are between blocks
  · rw [List.nodup_flatten]
    refine ⟨?_, ?_⟩
    · intro l hl
      obtain ⟨i, -, rfl⟩ := List.mem_map.mp hl
      refine List.Nodup.map ?_ ((Block.targets_nodup _).filter _)
      intro a b hab
      simpa using hab
    · rw [List.pairwise_map]
      refine List.Pairwise.imp ?_ List.nodup_range
      intro i j hij e hi hj
      obtain ⟨a, -, rfl⟩ := List.mem_map.mp hi
      obtain ⟨b, -, hb⟩ := List.mem_map.mp hj
      have := congrArg Edge.source hb
      exact hij (by simpa using this.symm)
  · rintro ⟨s, t⟩
    simp only [List.mem_flatten, List.mem_map, List.mem_range,
      exists_exists_and_eq_and]
    constructor
    · rintro ⟨i, -, he⟩
      obtain ⟨u, hu, hut⟩ := List.mem_map.mp he
      cases hut
      simpa using (List.mem_filter.mp hu).2
    · intro hc
      obtain ⟨sb, tb, hsb, htb, ht, hl⟩ := hc
      obtain ⟨i, rfl, hi⟩ := block?_eq_some_iff.mp hsb
      have hil : i < f.blocks.length := (List.getElem?_eq_some_iff.mp hi).1
      refine ⟨i, hil, List.mem_map.mpr ⟨t, List.mem_filter.mpr ⟨?_, ?_⟩, rfl⟩⟩
      · rw [block?_of_blocks hblocks] at hsb
        rw [List.getD_eq_getElem?_getD, hsb]
        exact ht
      · exact decide_eq_true ⟨sb, tb, hsb, htb, ht, hl⟩

/-- Splitting different edges one by one keeps structure and distinct
predecessors. -/
theorem splitAll_wellFormed (es : List Edge) (done : List (Edge × BlockId))
    (h : f.WellFormed) (hd : f.PredsDistinct) (hnd : es.Nodup)
    (hes : ∀ e ∈ es, f.HasEdge e.source e.target) :
    ∃ r, es.foldlM (fun (done, f) e => do
        let (mid, f) ← f.splitEdge e.source e.target
        return (done ++ [(e, mid)], f)) (done, f) = .ok r
      ∧ r.2.WellFormed ∧ r.2.PredsDistinct := by
  obtain ⟨r, hr, hwf, hpd, -⟩ := foldlM_steps (ε := Halted Func)
    (g := fun (x : List (Edge × BlockId) × Func) (e : Edge) => do
      let (mid, f) ← x.2.splitEdge e.source e.target
      return (x.1 ++ [(e, mid)], f))
    (fun rest x => x.2.WellFormed ∧ x.2.PredsDistinct ∧ rest.Nodup
      ∧ ∀ e ∈ rest, x.2.HasEdge e.source e.target)
    (fun x e rest ⟨hwf, hpd, hrest, hedge⟩ => by
      obtain ⟨sb, hsb, htsb⟩ := hedge e List.mem_cons_self
      obtain ⟨tb, htb⟩ := hwf.target_exists hsb htsb
      obtain ⟨g, hg, hsplit⟩ := splitEdge_splitOf hsb htb
      rw [List.nodup_cons] at hrest
      obtain ⟨hgwf, hgpd⟩ := hsplit.wellFormed hwf hpd ⟨sb, hsb, htsb⟩
      refine ⟨(x.1 ++ [(e, (x.2.blocks.length : Int))], g), ?_, hgwf,
        hgpd, hrest.2, ?_⟩
      · dsimp only
        rw [hg]
        rfl
      · intro e' he'
        refine hsplit.hasEdge (hedge e' (List.mem_cons_of_mem _ he')) ?_
        rintro ⟨hs, ht⟩
        have : e' = e := by
          cases e
          cases e'
          simp_all
        exact hrest.1 (this ▸ he'))
    es (done, f) ⟨h, hd, hnd, hes⟩
  exact ⟨r, hr, hwf, hpd⟩

/-- Splitting the critical edges keeps structure and distinct predecessors. -/
theorem splitCriticalEdges_wellFormed (h : f.WellFormed)
    (hd : f.PredsDistinct) :
    ∃ r, f.splitCriticalEdges = .ok r ∧ r.2.WellFormed ∧ r.2.PredsDistinct := by
  obtain ⟨es, hes, hnd, hmem⟩ := criticalEdges_eq_ok h
  obtain ⟨r, hr, hr'⟩ := splitAll_wellFormed es [] h hd hnd fun e he =>
    ((hmem e).mp he).hasEdge
  refine ⟨r, ?_, hr'⟩
  unfold splitCriticalEdges
  rw [hes, given_ok, ok_bind]
  exact hr

end Func

end MirBackend
