/-
Predecessor lists over any history of edits.

A function that is being written is edited block by block and edge by edge, in
any order. `Func.Mirrored` is what all edits keep: the predecessor lists name
every edge of the terminators, each once, and nothing else. Validity is no help
here, since most functions on the way have blocks without terminator.

Each edit that changes edges ends in a function that is described by another
one and a table of predecessors (`Func.Listing`). So every step lemma compares
two tables: the one that the edit leaves, and the edges of the function with
its new terminator (`Listing.mirrored`). Loops of a block to itself, branches
with both arms on one block and edges redirected onto a target that is there
already need no case of their own, since listing and striking are about
membership alone.
-/
import Mathlib
import MirBackend.Func.Draft
import MirBackend.Proofs.Func.SplitForm

namespace MirBackend

namespace Func

variable {f g : Func} {b : BlockId}

/-- The predecessor lists hold every edge once, and nothing else. -/
structure Mirrored (f : Func) : Prop where
  full : ∀ o ∈ f.blocks, o.isSome = true
  target : ∀ p c, f.HasEdge p c → f.hasBlock c = true
  preds : ∀ c blk, f.block? c = some blk → ∀ p, p ∈ blk.preds ↔ f.HasEdge p c
  distinct : f.PredsDistinct

namespace Mirrored

/-- Where edges are mirrored no block is missing. -/
theorem block (h : f.Mirrored) (hb : f.hasBlock b = true) :
    ∃ blk, f.block? b = some blk :=
  block?_of_hasBlock h.full hb

/-- The table of predecessors lists the edges. -/
theorem mem_predTable (h : f.Mirrored) {p c : BlockId} :
    p ∈ f.predTable c ↔ f.HasEdge p c := by
  cases hc : f.block? c with
  | some blk => rw [predTable_of_block? hc, h.preds c blk hc]
  | none =>
      constructor
      · intro hp
        simp [predTable, hc] at hp
      · intro he
        obtain ⟨blk, hblk⟩ := h.block (h.target p c he)
        rw [hc] at hblk
        cases hblk

/-- And no predecessor is listed twice. -/
theorem nodup_predTable (h : f.Mirrored) (c : BlockId) :
    (f.predTable c).Nodup := by
  cases hc : f.block? c with
  | some blk => exact predTable_of_block? hc ▸ h.distinct c blk hc
  | none => simp [predTable, hc]

end Mirrored

/-- A table that lists the edges of a function mirrors them. -/
theorem Listing.mirrored {ps : BlockId → List BlockId} (h : f.Listing g ps)
    (hfull : ∀ o ∈ f.blocks, o.isSome = true)
    (htarget : ∀ p c, f.HasEdge p c → f.hasBlock c = true)
    (hnd : ∀ c, (ps c).Nodup)
    (hmem : ∀ c p, p ∈ ps c ↔ f.HasEdge p c) : g.Mirrored := by
  have hhas (c : BlockId) : g.hasBlock c = f.hasBlock c := by
    rw [hasBlock, hasBlock, h.length]
  refine ⟨full_iff.mpr fun i hi => ?_, fun p c he => ?_, fun c blk hc p => ?_,
    fun c blk hc => ?_⟩
  · obtain ⟨blk, hblk⟩ := full_iff.mp hfull i (h.length ▸ hi)
    exact ⟨_, by rw [h.block, hblk]; rfl⟩
  · rw [hhas]
    exact htarget p c (h.hasEdge.mp he)
  · rw [h.block] at hc
    obtain ⟨blk₀, -, rfl⟩ := Option.map_eq_some_iff.mp hc
    rw [h.hasEdge]
    exact hmem c p
  · rw [h.block] at hc
    obtain ⟨blk₀, -, rfl⟩ := Option.map_eq_some_iff.mp hc
    exact hnd c

-- ============================================================= one terminator

/-- The edges of a function in which one terminator was changed. -/
theorem hasEdge_modifyTerm {blk : Block} (hb : f.block? b = some blk)
    (t : Option Terminator → Option Terminator) {p c : BlockId} :
    (f.modifyBlock b fun blk => { blk with term := t blk.term }).HasEdge p c
      ↔ if p = b then c ∈ targetsOf (t blk.term) else f.HasEdge p c := by
  simp only [HasEdge, block?_modifyBlock]
  by_cases hp : p = b
  · subst hp
    simp only [if_pos, hb, Option.map_some, Option.some.injEq]
    constructor
    · rintro ⟨-, rfl, hc⟩
      exact hc
    · intro hc
      exact ⟨_, rfl, hc⟩
  · simp only [if_neg hp]

/-- Changing a block leaves none missing. -/
theorem full_modifyBlock (h : ∀ o ∈ f.blocks, o.isSome = true)
    (r : Block → Block) :
    ∀ o ∈ (f.modifyBlock b r).blocks, o.isSome = true := by
  refine full_iff.mpr fun i hi => ?_
  rw [length_modifyBlock] at hi
  obtain ⟨blk, hblk⟩ := full_iff.mp h i hi
  rw [block?_modifyBlock, hblk]
  split <;> exact ⟨_, rfl⟩

/-- Nor does it use another number. -/
theorem hasBlock_modifyBlock (r : Block → Block) (c : BlockId) :
    (f.modifyBlock b r).hasBlock c = f.hasBlock c := by
  rw [hasBlock, hasBlock, length_modifyBlock]

/-- Another terminator for a block, with targets that are there. -/
theorem Mirrored.setTerm (h : f.Mirrored) {t : Option Terminator}
    (hb : f.hasBlock b = true) (ht : ∀ s ∈ targetsOf t, f.hasBlock s = true) :
    ∃ g, f.setTerm b t = .ok g ∧ g.Mirrored
        ∧ g.blocks.length = f.blocks.length := by
  obtain ⟨blk, hblk⟩ := h.block hb
  obtain ⟨g, hg, hl⟩ := setTerm_listing hblk
    (fun s hs => h.block (h.target b s ⟨blk, hblk, hs⟩))
    (fun s hs => h.block (ht s hs))
  have hedge (p c : BlockId) :=
    hasEdge_modifyTerm hblk (fun _ => t) (p := p) (c := c)
  refine ⟨g, hg,
    hl.mirrored (full_modifyBlock h.full _) (fun p c he => ?_) (fun c => ?_)
    (fun c p => ?_), hl.length.trans (length_modifyBlock f b _)⟩
  · rw [hasBlock_modifyBlock]
    rw [hedge] at he
    split at he
    · exact ht c he
    · exact h.target p c he
  · -- striking and listing once leave a list without repetitions
    have hstruck : (if c ∈ blk.targets then (f.predTable c).erase b
        else f.predTable c).Nodup := by
      split
      · exact (h.nodup_predTable c).erase b
      · exact h.nodup_predTable c
    dsimp only
    split
    · exact listed_nodup hstruck
    · exact hstruck
  · have hstruck : (p ∈ if c ∈ blk.targets then (f.predTable c).erase b
        else f.predTable c)
        ↔ p ≠ b ∧ f.HasEdge p c := by
      split
      · rw [(h.nodup_predTable c).mem_erase_iff, h.mem_predTable]
      · next hc =>
        rw [h.mem_predTable]
        refine ⟨fun he => ⟨?_, he⟩, And.right⟩
        rintro rfl
        obtain ⟨pb, hpb, hcp⟩ := he
        rw [hblk, Option.some.injEq] at hpb
        exact hc (hpb ▸ hcp)
    rw [hedge]
    dsimp only
    by_cases hp : p = b
    · subst hp
      rw [if_pos rfl]
      split
      · next hc => simp [mem_listed, hc]
      · next hc => simp only [hstruck, hc, ne_eq, not_true_eq_false, false_and]
    · rw [if_neg hp]
      split
      · rw [mem_listed, hstruck]
        simp [hp]
      · rw [hstruck]
        simp [hp]

/-- A change that leaves the predecessors of its block leaves the table of
all. -/
theorem predTable_modifyBlock {r : Block → Block}
    (hr : ∀ blk, (r blk).preds = blk.preds) :
    (f.modifyBlock b r).predTable = f.predTable := by
  funext c
  rw [predTable, block?_modifyBlock, predTable]
  split
  · rw [Option.map_map]
    exact congrArg (fun g => ((f.block? c).map g).getD []) (funext hr)
  · rfl

/-- The edges of a function in which one edge was redirected. -/
theorem hasEdge_redirected {source old new p c : BlockId}
    (he : f.HasEdge source old) :
    (f.modifyBlock source fun b =>
      { b with term := b.term.map (·.redirect old new) }).HasEdge p c
      ↔ if p = source then c = new ∨ c ≠ old
      ∧ f.HasEdge source c else f.HasEdge p c := by
  obtain ⟨sb, hsb, hold⟩ := he
  -- each target is turned by itself
  have hmem : c ∈ targetsOf (sb.term.map (·.redirect old new))
      ↔ ∃ u ∈ sb.targets, (if u = old then new else u) = c := by
    rw [Block.targets]
    cases sb.term with
    | none => simp [targetsOf]
    | some t => exact Terminator.mem_targets_mapTargets
  have hfrom : f.HasEdge source c ↔ c ∈ sb.targets := by simp [HasEdge, hsb]
  rw [hasEdge_modifyTerm hsb fun t => t.map (·.redirect old new), hmem, hfrom]
  split
  · constructor
    · rintro ⟨u, hu, rfl⟩
      split
      · exact Or.inl rfl
      · next hne => exact Or.inr ⟨hne, hu⟩
    · rintro (rfl | ⟨hne, hc⟩)
      · exact ⟨old, hold, if_pos rfl⟩
      · exact ⟨c, hc, if_neg hne⟩
  · exact Iff.rfl

/-- The table from which one edge was struck lists all others. -/
theorem Mirrored.mem_struck (h : f.Mirrored) {source old p c : BlockId} :
    p ∈ Function.update f.predTable old ((f.predTable old).erase source) c
      ↔ f.HasEdge p c ∧ ¬(c = old ∧ p = source) := by
  by_cases hc : c = old
  · rw [hc, Function.update_self, (h.nodup_predTable old).mem_erase_iff,
      h.mem_predTable, and_comm]
    simp
  · rw [Function.update_of_ne hc, h.mem_predTable]
    simp [hc]

/-- Striking a predecessor leaves the others distinct. -/
theorem Mirrored.nodup_struck (h : f.Mirrored) (source old c : BlockId) :
    (Function.update f.predTable old
      ((f.predTable old).erase source) c).Nodup := by
  by_cases hc : c = old
  · rw [hc, Function.update_self]
    exact (h.nodup_predTable old).erase source
  · rw [Function.update_of_ne hc]
    exact h.nodup_predTable c

/-- An edge redirected to a block that is there. -/
theorem Mirrored.redirectEdge (h : f.Mirrored) {source old new : BlockId}
    (he : f.HasEdge source old) (hnew : f.hasBlock new = true) :
    ∃ g, f.redirectEdge source old new = .ok g ∧ g.Mirrored := by
  obtain ⟨sb, hsb, -⟩ := id he
  obtain ⟨f₁, hf₁⟩ : ∃ f₁, f₁ = f.modifyBlock source fun b =>
      { b with term := b.term.map (·.redirect old new) } := ⟨_, rfl⟩
  have hfull : ∀ o ∈ f₁.blocks, o.isSome = true := by
    rw [hf₁]
    exact full_modifyBlock h.full _
  have hhas (c : BlockId) : f₁.hasBlock c = f.hasBlock c := by
    rw [hf₁, hasBlock_modifyBlock]
  have htable : f₁.predTable = f.predTable := by
    rw [hf₁]
    exact predTable_modifyBlock fun _ => rfl
  have hedge (p c : BlockId) : f₁.HasEdge p c ↔ if p = source
      then c = new ∨ c ≠ old ∧ f.HasEdge source c else f.HasEdge p c := by
    rw [hf₁]
    exact hasEdge_redirected he
  -- struck from the list of the old target, then listed by the new one
  obtain ⟨f₂, hf₂, hl₂⟩ := (Listing.refl f₁).disconnect (s := source)
    (block?_of_hasBlock hfull ((hhas old).trans (h.target source old he)))
  obtain ⟨g, hg, hl⟩ :=
    hl₂.connect (s := source) (block?_of_hasBlock hfull ((hhas new).trans hnew))
  rw [htable] at hl
  refine ⟨g, ?_,
    hl.mirrored hfull (fun p c hpc => ?_) (fun c => ?_) fun c p => ?_⟩
  · rw [Func.redirectEdge, updateBlock_of_block? hsb, ok_bind,
      ← hf₁, hf₂, ok_bind]
    exact hg
  · rw [hhas]
    rw [hedge] at hpc
    split at hpc
    · rcases hpc with rfl | ⟨-, hpc⟩
      · exact hnew
      · exact h.target source c hpc
    · exact h.target p c hpc
  -- a list that named no block twice still does not
  · by_cases hc : c = new
    · rw [hc, Function.update_self]
      exact listed_nodup (h.nodup_struck source old new)
    · rw [Function.update_of_ne hc]
      exact h.nodup_struck source old c
  -- the new target lists the source, the old one no longer does, and the other
  -- lists are as before
  · rw [hedge]
    by_cases hc : c = new
    · rw [hc, Function.update_self, mem_listed, h.mem_struck]
      by_cases hp : p = source
      · simp [hp]
      · simp [hp]
    · rw [Function.update_of_ne hc, h.mem_struck]
      by_cases hp : p = source
      · subst hp
        simp [hc, and_comm]
      · simp [hp]

-- ============================================================== whole graphs

/-- A function whose blocks have neither terminators nor predecessors. -/
theorem mirrored_bare (h : ∀ o ∈ f.blocks, ∃ blk : Block, o = some blk
      ∧ blk.term = none ∧ blk.preds = []) :
    f.Mirrored := by
  have hblock {c : BlockId} {blk : Block} (hc : f.block? c = some blk) :
      blk.term = none ∧ blk.preds = [] := by
    obtain ⟨i, rfl, hi⟩ := block?_eq_some_iff.mp hc
    obtain ⟨blk', heq, hbare⟩ := h _ (List.mem_of_getElem? hi)
    cases heq
    exact hbare
  -- without terminators there are no edges, and nothing is listed
  have hedge (p c : BlockId) : ¬f.HasEdge p c := by
    rintro ⟨pb, hpb, hc⟩
    rw [Block.targets, (hblock hpb).1] at hc
    cases hc
  refine ⟨fun o ho => ?_, fun p c he => absurd he (hedge p c),
    fun c blk hc p => ?_, fun c blk hc => ?_⟩
  · obtain ⟨blk, rfl, -⟩ := h o ho
    rfl
  · rw [(hblock hc).2]
    exact ⟨fun hp => (List.not_mem_nil hp).elim,
      fun he => absurd he (hedge p c)⟩
  · rw [(hblock hc).2]
    exact List.nodup_nil

/-- A function with one empty block. -/
theorem mirrored_named (name : String) : (Func.named name).Mirrored :=
  mirrored_bare fun _ ho => ⟨_, List.mem_singleton.mp ho, rfl, rfl⟩

/-- A new block has no edges. -/
theorem Mirrored.newBlock (h : f.Mirrored) (name : String) :
    (f.newBlock name).2.Mirrored := by
  have hblock (c : BlockId) : (f.newBlock name).2.block? c
      = if c = f.blocks.length then some { name } else f.block? c :=
        block?_append f _ c
  -- a block without a terminator adds no edge
  have hedge (p c : BlockId) : (f.newBlock name).2.HasEdge p c
      ↔ f.HasEdge p c := by
    simp only [HasEdge, hblock]
    by_cases hp : p = f.blocks.length
    · subst hp
      simp [block?_length, Block.targets, targetsOf]
    · simp only [if_neg hp]
  have hgrow (c : BlockId) (hc : f.hasBlock c = true) :
      (f.newBlock name).2.hasBlock c = true := by
    obtain ⟨i, rfl, hi⟩ := hasBlock_iff.mp hc
    refine hasBlock_iff.mpr ⟨i, rfl, ?_⟩
    simp only [Func.newBlock, List.length_append, List.length_singleton]
    omega
  refine ⟨fun o ho => ?_, fun p c he =>
    hgrow c (h.target p c ((hedge p c).mp he)),
    fun c blk hc p => ?_, fun c blk hc => ?_⟩
  · rcases List.mem_append.mp ho with ho | ho
    · exact h.full o ho
    · rw [List.mem_singleton.mp ho]
      rfl
  · rw [hedge]
    rw [hblock] at hc
    split at hc
    · next hlen =>
      cases hc
      refine ⟨fun hp => (List.not_mem_nil hp).elim, fun he => ?_⟩
      obtain ⟨cb, hcb⟩ := h.block (h.target p c he)
      exact absurd hlen (ne_length_of_block? hcb)
    · exact h.preds c blk hc p
  · rw [hblock] at hc
    split at hc
    · cases hc
      exact List.nodup_nil
    · exact h.distinct c blk hc

/-- Splitting an edge puts two edges in its place. -/
theorem Mirrored.splitEdge (h : f.Mirrored) {source target : BlockId}
    (he : f.HasEdge source target) :
    ∃ mid g, f.splitEdge source target = .ok (mid, g) ∧ g.Mirrored := by
  obtain ⟨sb, hsb, hts⟩ := id he
  obtain ⟨tb, htb⟩ := h.block (h.target source target he)
  obtain ⟨g, hg, hsplit⟩ := splitEdge_splitOf hsb htb
  -- the middle block gets the number after the last
  have hmid : g.hasBlock f.blocks.length = true :=
    hasBlock_of_block? hsplit.block?_mid
  refine ⟨_, g, hg, full_iff.mpr fun i hi => ?_, fun p c hpc => ?_,
    fun c blk hc p => ?_, fun c blk hc => ?_⟩
  · rw [hsplit.length] at hi
    rcases Nat.lt_succ_iff_lt_or_eq.mp hi with hi | rfl
    · obtain ⟨blk, hblk⟩ := full_iff.mp h.full i hi
      exact ⟨_, hsplit.block?_old hblk⟩
    · exact ⟨_, hsplit.block?_mid⟩
  -- the edges of the result: the two through the middle block, and the old ones
  -- but for the split one
  · rcases hsplit.hasEdge_cases hpc with ⟨-, rfl⟩ | ⟨-, rfl⟩ | ⟨hpc, -⟩
    · exact hsplit.hasBlock (hasBlock_of_block? htb)
    · exact hmid
    · exact hsplit.hasBlock (h.target p c hpc)
  · rcases hsplit.block?_cases hc with ⟨rfl, rfl⟩ | ⟨blk₀, hblk₀, rfl⟩
    · rw [midBlock_preds, List.mem_singleton]
      constructor
      · rintro rfl
        exact (hsplit.hasEdge_mid he).1
      · intro hpc
        rcases hsplit.hasEdge_cases hpc with ⟨-, heq⟩ | ⟨hp, -⟩ | ⟨hpc, -⟩
        · exact absurd heq.symm (ne_length_of_block? htb)
        · exact hp
        · obtain ⟨cb, hcb⟩ := h.block (h.target p _ hpc)
          exact absurd rfl (ne_length_of_block? hcb)
    · rw [mem_preds_splitBlock (h.distinct c blk₀ hblk₀), h.preds c blk₀ hblk₀]
      constructor
      · rintro (⟨hpc, hne⟩ | ⟨rfl, rfl⟩)
        · exact hsplit.hasEdge hpc fun hx => hne ⟨hx.2, hx.1⟩
        · exact (hsplit.hasEdge_mid he).2
      · intro hpc
        rcases hsplit.hasEdge_cases hpc with ⟨hp, hc⟩ | ⟨-, rfl⟩ | ⟨hpc, hne⟩
        · exact Or.inr ⟨hc, hp⟩
        · exact absurd rfl (ne_length_of_block? hblk₀)
        · exact Or.inl ⟨hpc, fun hx => hne ⟨hx.2, hx.1⟩⟩
  · rcases hsplit.block?_cases hc with ⟨rfl, rfl⟩ | ⟨blk₀, hblk₀, rfl⟩
    · exact List.nodup_singleton source
    · simp only [splitBlock]
      split
      · exact listed_nodup ((h.distinct c blk₀ hblk₀).erase source)
      · exact h.distinct c blk₀ hblk₀

/-- Rebuilding the lists mirrors the edges, whatever the lists were. -/
theorem recomputePreds_mirrored (hfull : ∀ o ∈ f.blocks, o.isSome = true)
    (htarget : ∀ p c, f.HasEdge p c → f.hasBlock c = true) :
    ∃ g, f.recomputePreds = .ok g ∧ g.Mirrored := by
  obtain ⟨bs, -, hbs⟩ := present_of_full hfull
  obtain ⟨g, ps, hg, hl, hnd, hmem⟩ :=
    recomputePreds_listing hbs fun blk hblk t ht => by
    obtain ⟨i, hi⟩ := List.mem_iff_getElem?.mp hblk
    refine block?_of_hasBlock hfull (htarget i t ⟨blk, ?_, ht⟩)
    rw [block?_of_blocks hbs, hi]
  exact ⟨g, hg, hl.mirrored hfull htarget hnd hmem⟩

/-- Marking a block leaves its edges and lists. -/
theorem Mirrored.mark (h : f.Mirrored) (b : BlockId) :
    (f.modifyBlock b fun blk => { blk with filled := true }).Mirrored := by
  -- only the mark changes, neither targets nor predecessors
  have hblock {c : BlockId} {blk : Block}
      (hc : (f.modifyBlock b fun blk => { blk with filled := true }).block? c
      = some blk) :
      ∃ blk₀, f.block? c = some blk₀ ∧ blk.targets = blk₀.targets
        ∧ blk.preds = blk₀.preds := by
    rw [block?_modifyBlock] at hc
    split at hc
    · obtain ⟨blk₀, hblk₀, rfl⟩ := Option.map_eq_some_iff.mp hc
      exact ⟨blk₀, hblk₀, rfl, rfl⟩
    · exact ⟨blk, hc, rfl, rfl⟩
  have hedge (p c : BlockId) :
      (f.modifyBlock b fun blk => { blk with filled := true }).HasEdge p c
      ↔ f.HasEdge p c := by
    constructor
    · rintro ⟨pb, hpb, hc⟩
      obtain ⟨pb₀, hpb₀, ht, -⟩ := hblock hpb
      exact ⟨pb₀, hpb₀, ht ▸ hc⟩
    · rintro ⟨pb, hpb, hc⟩
      simp only [HasEdge, block?_modifyBlock, hpb]
      split <;> exact ⟨_, rfl, hc⟩
  refine ⟨full_modifyBlock h.full _, fun p c he => ?_, fun c blk hc p => ?_,
    fun c blk hc => ?_⟩
  · rw [hasBlock_modifyBlock]
    exact h.target p c ((hedge p c).mp he)
  · obtain ⟨blk₀, hblk₀, -, hp⟩ := hblock hc
    rw [hedge, hp]
    exact h.preds c blk₀ hblk₀ p
  · obtain ⟨blk₀, hblk₀, -, hp⟩ := hblock hc
    exact hp ▸ h.distinct c blk₀ hblk₀

end Func

-- =================================================================== edits

/-- One edit of the graph of a function. -/
inductive Edit where
  | newBlock (name : String)
  | setTerm (b : BlockId) (t : Option Terminator)
  /-- End the current block of a draft. -/
  | terminate (cur : BlockId) (t : Terminator)
  | redirectEdge (source old new : BlockId)
  | splitEdge (source target : BlockId)
  | recomputePreds

namespace Edit

/-- The function after the edit, unless it halts. -/
def run : Edit → Func → Option Func
  | .newBlock name, f => some (f.newBlock name).2
  | .setTerm b t, f => (f.setTerm b t).toOption
  | .terminate cur t, f => match Draft.terminate t ⟨f, cur⟩ with
    | .ok _ d => some d.func
    | .error _ _ => none
  | .redirectEdge s old new, f => (f.redirectEdge s old new).toOption
  | .splitEdge s t, f => (f.splitEdge s t).toOption.map (·.2)
  | .recomputePreds, f => f.recomputePreds.toOption

/-- What an edit asks for: the blocks it names are there, and so is the edge it
changes. -/
def Legal : Edit → Func → Prop
  | .newBlock _, _ | .recomputePreds, _ => True
  | .setTerm b t, f => f.hasBlock b = true
      ∧ ∀ s ∈ targetsOf t, f.hasBlock s = true
  | .terminate cur t, f => f.hasBlock cur = true
      ∧ ∀ s ∈ t.targets, f.hasBlock s = true
  | .redirectEdge s old new, f => f.HasEdge s old ∧ f.hasBlock new = true
  | .splitEdge s t, f => f.HasEdge s t

variable {f g : Func} {name : String}

/-- A legal edit comes to an end and keeps the lists in step with the
terminators. -/
theorem run_mirrored {e : Edit} (h : f.Mirrored) (hlegal : e.Legal f) :
    ∃ g, e.run f = some g ∧ g.Mirrored := by
  cases e with
  | newBlock name => exact ⟨_, rfl, h.newBlock name⟩
  | setTerm b t =>
      obtain ⟨g, hg, hm, -⟩ := h.setTerm hlegal.1 hlegal.2
      exact ⟨g, by rw [run, hg]; rfl, hm⟩
  | terminate cur t =>
      obtain ⟨g, hg, hm, hlen⟩ := h.setTerm (t := some t) hlegal.1 hlegal.2
      -- the block is still there to be marked as filled
      obtain ⟨blk, hblk⟩ :=
        hm.block (b := cur) (by rw [Func.hasBlock, hlen]; exact hlegal.1)
      refine ⟨_, ?_, hm.mark cur⟩
      have hend : Draft.terminate t ⟨f, cur⟩
          = .ok () ⟨g.modifyBlock cur fun b => { b with filled := true },
          cur⟩ := by
        simp only [Draft.terminate, bind, EStateM.bind, get, getThe,
          MonadStateOf.get, EStateM.get,
          Draft.edit, hg, Func.updateBlock_of_block? hblk]
      rw [run, hend]
  | redirectEdge s old new =>
      obtain ⟨g, hg, hm⟩ := h.redirectEdge hlegal.1 hlegal.2
      exact ⟨g, by rw [run, hg]; rfl, hm⟩
  | splitEdge s t =>
      obtain ⟨mid, g, hg, hm⟩ := h.splitEdge hlegal
      exact ⟨g, by rw [run, hg]; rfl, hm⟩
  | recomputePreds =>
      obtain ⟨g, hg, hm⟩ := Func.recomputePreds_mirrored h.full h.target
      exact ⟨g, by rw [run, hg]; rfl, hm⟩

-- Whether an edit is legal can be looked up, so that a history can be replayed.
instance (f : Func) (p c : BlockId) : Decidable (f.HasEdge p c) :=
  decidable_of_iff ((f.block? p).any (c ∈ ·.targets) = true) (by
    rw [Func.HasEdge]
    cases f.block? p <;> simp)

instance : (e : Edit) → (f : Func) → Decidable (e.Legal f)
  | .newBlock _, _ | .recomputePreds, _ => isTrue trivial
  | .setTerm b t, f =>
      inferInstanceAs
        (Decidable (f.hasBlock b = true ∧ ∀ s ∈ targetsOf t,
          f.hasBlock s = true))
  | .terminate b t, f =>
      inferInstanceAs
        (Decidable (f.hasBlock b = true ∧ ∀ s ∈ t.targets, f.hasBlock s = true))
  | .redirectEdge s old new, f =>
      inferInstanceAs (Decidable (f.HasEdge s old ∧ f.hasBlock new = true))
  | .splitEdge s t, f => inferInstanceAs (Decidable (f.HasEdge s t))

/-- The function after a history of edits, unless one of them is not legal or
halts. -/
def replay : List Edit → Func → Option Func
  | [], f => some f
  | e :: es, f => if e.Legal f then (e.run f).bind (replay es) else none

/-- A history is its first part and then its last edit. -/
theorem replay_append (es : List Edit) (e : Edit) (f : Func) :
    replay (es ++ [e]) f = (replay es f).bind fun g =>
      if e.Legal g then e.run g else none := by
  induction es generalizing f with
  | nil => simp [replay]
  | cons e' es ih =>
      rw [List.cons_append, replay, replay]
      split
      · simp only [ih, Option.bind_assoc]
      · rfl

/-- Edges are mirrored after every legal history, by induction on the edits. -/
theorem replay_mirrored {es : List Edit} (h : f.Mirrored)
    (hg : replay es f = some g) : g.Mirrored := by
  induction es generalizing f with
  | nil =>
      cases hg
      exact h
  | cons e es ih =>
      rw [replay] at hg
      split at hg
      · next hlegal =>
        obtain ⟨f', hf', hm⟩ := run_mirrored h hlegal
        rw [hf'] at hg
        exact ih hm hg
      · cases hg

/-- After any history of edits each block lists the blocks that jump to it, each
once and no others, and any legal edit can be the next. -/
theorem replay_preds_exact {es : List Edit}
    (h : replay es (Func.named name) = some f) :
    (∀ b blk, f.block? b = some blk → blk.preds.Nodup
      ∧ ∀ p, p ∈ blk.preds ↔ ∃ pb, f.block? p = some pb ∧ b ∈ pb.targets)
    ∧ ∀ e : Edit, e.Legal f → ∃ g, replay (es ++ [e])
    (Func.named name) = some g := by
  have hm := replay_mirrored (Func.mirrored_named name) h
  refine ⟨fun b blk hb => ⟨hm.distinct b blk hb, hm.preds b blk hb⟩,
    fun e hlegal => ?_⟩
  obtain ⟨g, hg, -⟩ := run_mirrored hm hlegal
  refine ⟨g, ?_⟩
  rw [replay_append, h, Option.bind_some, if_pos hlegal, hg]

/-- A branch with both arms on one block, a loop of a block to itself, an edge
redirected onto a target that is there already, the loop split, and a terminator
taken away. -/
def knotted : List Edit :=
  [.newBlock "body", .setTerm 0 (some (.branch (.int 1) 1 1)),
    .terminate 1 (.branchCmp .eq (.int 0) (.int 0) 1 0),
      .redirectEdge 1 0 1, .splitEdge 1 1,
    .setTerm 0 none, .recomputePreds]

/-- A history that ties two blocks into a knot without an entry to it. -/
theorem replay_preds_exact_knotted :
    ∃ f, replay knotted (Func.named "knot") = some f
    ∧ f.blocks.map (·.map (·.preds)) = [some [], some [2], some [1]]
    ∧ (∀ b blk, f.block? b = some blk → blk.preds.Nodup
      ∧ ∀ p, p ∈ blk.preds ↔ ∃ pb, f.block? p = some pb ∧ b ∈ pb.targets)
    ∧ ∀ e : Edit, e.Legal f → ∃ g, replay (knotted ++ [e])
    (Func.named "knot") = some g := by
  have hlists : (replay knotted (Func.named "knot")).map
      (·.blocks.map (·.map (·.preds)))
      = some [some [], some [2], some [1]] := by decide
  obtain ⟨f, hf, hpreds⟩ := Option.map_eq_some_iff.mp hlists
  exact ⟨f, hf, hpreds, replay_preds_exact hf⟩

end Edit

end MirBackend
