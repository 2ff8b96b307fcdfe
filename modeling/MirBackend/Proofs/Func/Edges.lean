/-
What the edge operations do to a function.

An edge operation rewrites predecessor lists and at most one terminator; all
else stays. So a function in the middle of edge edits is described by the
function it started from and a table of predecessor lists (`Listing`), and
`connect` and `disconnect` are updates of the table. From that follow the two
bulk operations: `setTerm` exchanges the listings of one block, and
`recomputePreds` lists every edge once.
-/
import Mathlib
import MirBackend.Func.Edges
import MirBackend.Proofs.Func.Validity

namespace MirBackend

-- ================================================================= targets

namespace Terminator

/-- A terminator names a target once. -/
theorem targets_nodup (t : Terminator) : t.targets.Nodup := by
  cases t with
  | branch c a b | branchCmp op l r a b =>
      simp only [targets]
      split
      · simp
      · next h => simp [h]
  | _ => simp [targets]

/-- A target is an image of one from before. -/
theorem mem_targets_mapTargets {m : BlockId → BlockId}
    {t : Terminator} {s : BlockId} :
    s ∈ (t.mapTargets m).targets ↔ ∃ u ∈ t.targets, m u = s := by
  have hpair (a b : BlockId) : s ∈ (if m a = m b then [m a] else [m a, m b])
      ↔ ∃ u ∈ (if a = b then [a] else [a, b]), m u = s := by
    by_cases hab : a = b
    · subst hab
      simp [eq_comm]
    · by_cases hm : m a = m b
      · simp [hab, hm, eq_comm]
      · simp [hab, hm, eq_comm]
  cases t with
  | jump a => simp [mapTargets, targets, eq_comm]
  | branch c a b => exact hpair a b
  | branchCmp op l r a b => exact hpair a b
  | ret vs => simp [mapTargets, targets]
  | unreachable => simp [mapTargets, targets]

end Terminator

/-- A terminator's targets are listed once each, also where both arms of a
branch lead to one block. -/
theorem targetsOf_nodup (t : Option Terminator) : (targetsOf t).Nodup := by
  cases t with
  | none => exact List.nodup_nil
  | some t => exact t.targets_nodup

theorem Block.targets_nodup (b : Block) : b.targets.Nodup :=
  targetsOf_nodup b.term

-- ================================================== tables of predecessors

/-- Everything about a function but its blocks and the journal. -/
structure Func.SameHeader (f g : Func) : Prop where
  name : g.name = f.name
  entry : g.entry = f.entry
  params : g.params = f.params
  returns : g.returns = f.returns
  types : g.types = f.types
  nextValue : g.nextValue = f.nextValue

-- A header is what no edit of blocks touches: name, parameters, returns, entry
-- and types.
theorem Func.SameHeader.refl (f : Func) : f.SameHeader f :=
  ⟨rfl, rfl, rfl, rfl, rfl, rfl⟩

theorem Func.SameHeader.trans {f g h : Func} (hg : f.SameHeader g)
    (hh : g.SameHeader h) : f.SameHeader h :=
  ⟨hh.name.trans hg.name, hh.entry.trans hg.entry, hh.params.trans hg.params,
    hh.returns.trans hg.returns, hh.types.trans hg.types,
      hh.nextValue.trans hg.nextValue⟩

theorem Func.sameHeader_record (f : Func) (e : EdgeEdit) :
    f.SameHeader (f.record e) :=
  ⟨rfl, rfl, rfl, rfl, rfl, rfl⟩

theorem Func.sameHeader_modifyBlock (f : Func) (b : BlockId)
    (g : Block → Block) : f.SameHeader (f.modifyBlock b g) := by
  cases b <;> exact ⟨rfl, rfl, rfl, rfl, rfl, rfl⟩

/-- A block with another list of predecessors. -/
def Block.withPreds (ps : List BlockId) (b : Block) : Block :=
  { b with preds := ps }

/-- `g` is `f` with the predecessors of each block as the table says. -/
structure Func.Listing (f g : Func) (ps : BlockId → List BlockId) : Prop where
  header : f.SameHeader g
  length : g.blocks.length = f.blocks.length
  block : ∀ c, g.block? c = (f.block? c).map (Block.withPreds (ps c))

/-- The predecessor lists of a function as a table. -/
def Func.predTable (f : Func) (c : BlockId) : List BlockId :=
  ((f.block? c).map Block.preds).getD []

namespace Func

variable {f g : Func} {ps : BlockId → List BlockId} {s t b : BlockId}

/-- The table of predecessors has a block's own list. -/
theorem predTable_of_block? {blk : Block} (h : f.block? b = some blk) :
    f.predTable b = blk.preds := by
  simp [predTable, h]

/-- Before anything is relinked, the lists are as they are. -/
theorem Listing.refl (f : Func) : f.Listing f f.predTable := by
  refine ⟨.refl f, rfl, fun c => ?_⟩
  cases hc : f.block? c with
  | none => rfl
  | some blk => simp [predTable_of_block? hc, Block.withPreds]

/-- Other predecessor lists leave the instructions. -/
theorem Listing.instrs (h : f.Listing g ps) :
    g.blocks.map (·.map Block.instrs) = f.blocks.map (·.map Block.instrs) := by
  rw [blocks_eq_range g, blocks_eq_range f, h.length,
    List.map_map, List.map_map]
  refine List.map_congr_left fun i _ => ?_
  simp only [Function.comp_apply, h.block, Option.map_map]
  rfl

/-- A list with one more element, unless it is there already. -/
def listed (p : BlockId) (l : List BlockId) : List BlockId :=
  if p ∈ l then l else l ++ [p]

/-- A predecessor is added if it is not there. -/
theorem mem_listed {p q : BlockId} {l : List BlockId} :
    q ∈ listed p l ↔ q ∈ l ∨ q = p := by
  unfold listed
  split
  · next h =>
    constructor
    · exact Or.inl
    · rintro (hq | rfl)
      · exact hq
      · exact h
  · simp

/-- So none is listed twice. -/
theorem listed_nodup {p : BlockId} {l : List BlockId} (h : l.Nodup) :
    (listed p l).Nodup := by
  unfold listed
  split
  · exact h
  · next hp =>
    rw [List.nodup_append]
    refine ⟨h, List.nodup_singleton p, fun a ha c hc hac => hp ?_⟩
    rw [List.mem_singleton.mp hc] at hac
    exact hac ▸ ha

/-- Connecting two blocks adds one entry to the table. -/
theorem Listing.connect (h : f.Listing g ps) (ht : ∃ tb, f.block? t = some tb) :
    ∃ g', g.connect s t = .ok g'
      ∧ f.Listing g' (Function.update ps t (listed s (ps t))) := by
  obtain ⟨tb, htb⟩ := ht
  have hgt : g.block? t = some (tb.withPreds (ps t)) := by
    rw [h.block t, htb]; rfl
  refine ⟨(g.modifyBlock t (·.addPred s)).record (.connect ⟨s, t⟩), ?_, ?_, ?_,
    ?_⟩
  · simp only [Func.connect, updateBlock_of_block? hgt, ok_bind]
    rfl
  · exact h.header.trans ((sameHeader_modifyBlock g t _).trans
      (sameHeader_record _ _))
  · rw [blocks_record, length_modifyBlock, h.length]
  · intro c
    rw [block?_record, block?_modifyBlock]
    by_cases hc : c = t
    · subst hc
      rw [if_pos rfl, hgt, htb, Function.update_self]
      simp only [Option.map_some, Block.addPred, Block.withPreds, listed]
      split <;> rfl
    · rw [if_neg hc, h.block c, Function.update_of_ne hc]

/-- Disconnecting two blocks strikes one entry from the table. -/
theorem Listing.disconnect (h : f.Listing g ps)
    (ht : ∃ tb, f.block? t = some tb) : ∃ g', g.disconnect s t = .ok g'
      ∧ f.Listing g' (Function.update ps t ((ps t).erase s)) := by
  obtain ⟨tb, htb⟩ := ht
  have hgt : g.block? t = some (tb.withPreds (ps t)) := by
    rw [h.block t, htb]; rfl
  refine ⟨(g.modifyBlock t (·.removePred s)).record (.disconnect ⟨s, t⟩), ?_,
    ?_, ?_, ?_⟩
  · simp only [Func.disconnect, updateBlock_of_block? hgt, ok_bind]
    rfl
  · exact h.header.trans ((sameHeader_modifyBlock g t _).trans
      (sameHeader_record _ _))
  · rw [blocks_record, length_modifyBlock, h.length]
  · intro c
    rw [block?_record, block?_modifyBlock]
    by_cases hc : c = t
    · subst hc
      rw [if_pos rfl, hgt, htb, Function.update_self]
      rfl
    · rw [if_neg hc, h.block c, Function.update_of_ne hc]

/-- Connecting a block with several others lists it in each of them. -/
theorem Listing.connectAll (h : f.Listing g ps)
    {ts : List BlockId} (hts : ts.Nodup)
    (hex : ∀ t ∈ ts, ∃ tb, f.block? t = some tb) :
    ∃ g', ts.foldlM (fun g t => g.connect s t) g = .ok g'
      ∧ f.Listing g' fun c => if c ∈ ts then listed s (ps c) else ps c := by
  induction ts generalizing g ps with
  | nil => exact ⟨g, rfl, by simpa using h⟩
  | cons t ts ih =>
      rw [List.nodup_cons] at hts
      obtain ⟨g₁, hg₁, hl₁⟩ := h.connect (s := s) (hex t List.mem_cons_self)
      obtain ⟨g₂, hg₂, hl₂⟩ :=
        ih hl₁ hts.2 fun t ht => hex t (List.mem_cons_of_mem _ ht)
      refine ⟨g₂, by rw [List.foldlM_cons, hg₁]; exact hg₂, ?_⟩
      convert hl₂ using 2 with c
      by_cases hc : c = t
      · subst hc
        simp [hts.1]
      · simp [hc]

/-- Disconnecting a block from several others strikes it from each of them. -/
theorem Listing.disconnectAll (h : f.Listing g ps)
    {ts : List BlockId} (hts : ts.Nodup)
    (hex : ∀ t ∈ ts, ∃ tb, f.block? t = some tb) :
    ∃ g', ts.foldlM (fun g t => g.disconnect s t) g = .ok g'
      ∧ f.Listing g' fun c => if c ∈ ts then (ps c).erase s else ps c := by
  induction ts generalizing g ps with
  | nil => exact ⟨g, rfl, by simpa using h⟩
  | cons t ts ih =>
      rw [List.nodup_cons] at hts
      obtain ⟨g₁, hg₁, hl₁⟩ := h.disconnect (s := s) (hex t List.mem_cons_self)
      obtain ⟨g₂, hg₂, hl₂⟩ :=
        ih hl₁ hts.2 fun t ht => hex t (List.mem_cons_of_mem _ ht)
      refine ⟨g₂, by rw [List.foldlM_cons, hg₁]; exact hg₂, ?_⟩
      convert hl₂ using 2 with c
      by_cases hc : c = t
      · subst hc
        simp [hts.1]
      · simp [hc]

-- ========================================================== bulk operations

/-- Setting the terminator of a block: the block is struck from its old targets
and listed by its new ones. -/
theorem setTerm_listing {blk : Block} {tm : Option Terminator}
    (hb : f.block? b = some blk)
    (hold : ∀ t ∈ blk.targets, ∃ tb, f.block? t = some tb)
    (hnew : ∀ t ∈ targetsOf tm, ∃ tb, f.block? t = some tb) :
    ∃ g, f.setTerm b tm = .ok g
      ∧ (f.modifyBlock b fun blk => { blk with term := tm }).Listing g fun c =>
          let struck :=
            if c ∈ blk.targets then (f.predTable c).erase b else f.predTable c
          if c ∈ targetsOf tm then listed b struck else struck := by
  have hfilter : blk.targets.filter f.hasBlock = blk.targets := by
    rw [List.filter_eq_self]
    intro t ht
    obtain ⟨tb, htb⟩ := hold t ht
    exact hasBlock_of_block? htb
  obtain ⟨g₁, hg₁, hl₁⟩ :=
    (Listing.refl f).disconnectAll (s := b) blk.targets_nodup hold
  -- the new terminator changes no list, so the table is one of the changed
  -- function too
  have hl₂ : (f.modifyBlock b fun blk => { blk with term := tm }).Listing
      (g₁.modifyBlock b fun blk => { blk with term := tm })
      fun c => if c ∈ blk.targets then (f.predTable c).erase
      b else f.predTable c := by
    refine ⟨?_, ?_, fun c => ?_⟩
    · refine ⟨?_, ?_, ?_, ?_, ?_, ?_⟩
      · rw [(sameHeader_modifyBlock g₁ b _).name,
          (sameHeader_modifyBlock f b _).name, hl₁.header.name]
      · rw [entry_modifyBlock, entry_modifyBlock, hl₁.header.entry]
      · rw [params_modifyBlock, params_modifyBlock, hl₁.header.params]
      · rw [(sameHeader_modifyBlock g₁ b _).returns,
          (sameHeader_modifyBlock f b _).returns, hl₁.header.returns]
      · rw [(sameHeader_modifyBlock g₁ b _).types,
          (sameHeader_modifyBlock f b _).types, hl₁.header.types]
      · rw [nextValue_modifyBlock, nextValue_modifyBlock, hl₁.header.nextValue]
    · rw [length_modifyBlock, length_modifyBlock, hl₁.length]
    · rw [block?_modifyBlock, block?_modifyBlock, hl₁.block c]
      split
      · cases f.block? c <;> rfl
      · rfl
  obtain ⟨g, hg, hl⟩ :=
    hl₂.connectAll (s := b) (targetsOf_nodup tm) fun t ht => by
    obtain ⟨tb, htb⟩ := hnew t ht
    rw [block?_modifyBlock, htb]
    split <;> exact ⟨_, rfl⟩
  refine ⟨g, ?_, hl⟩
  unfold setTerm
  rw [block_eq_ok.mpr hb, given_ok, ok_bind]
  dsimp only
  rw [hfilter, hg₁, ok_bind]
  exact hg

/-- Connecting the blocks of a list, from number `n` on, with all their
targets. -/
private theorem connectBlocks {base : Func} (bs : List Block)
    (n : Nat) {g : Func} {ps : BlockId → List BlockId} (h : base.Listing g ps)
    (hnd : ∀ c, (ps c).Nodup)
    (hex : ∀ blk ∈ bs, ∀ t ∈ blk.targets, ∃ tb, base.block? t = some tb) :
    ∃ g' ps', ((bs.zipIdx n).foldlM
        (fun g (blk, i) => blk.targets.foldlM (fun g t => g.connect i t) g) g
          : Changing Func Func) = .ok g'
      ∧ base.Listing g' ps' ∧ (∀ c, (ps' c).Nodup)
      ∧ ∀ c p, p ∈ ps' c ↔ p ∈ ps c ∨ ∃ i blk, bs[i]? = some blk
          ∧ p = (n + i : Nat)
          ∧ c ∈ blk.targets := by
  induction bs generalizing n g ps with
  | nil => exact ⟨g, ps, rfl, h, hnd, fun c p => by simp⟩
  | cons blk bs ih =>
      obtain ⟨g₁, hg₁, hl₁⟩ := h.connectAll (s := (n : Int)) blk.targets_nodup
        (hex blk List.mem_cons_self)
      have hnd₁ : ∀ c, (if c ∈ blk.targets then listed (n : Int) (ps c)
          else ps c).Nodup := by
        intro c
        split
        · exact listed_nodup (hnd c)
        · exact hnd c
      obtain ⟨g₂, ps₂, hg₂, hl₂, hnd₂, hmem⟩ := ih (n + 1) hl₁ hnd₁
        fun b hb => hex b (List.mem_cons_of_mem _ hb)
      refine ⟨g₂, ps₂, ?_, hl₂, hnd₂, fun c p => ?_⟩
      · rw [List.zipIdx_cons, List.foldlM_cons]
        dsimp only
        rw [hg₁, ok_bind]
        exact hg₂
      · -- the table after the first block, then the rest
        have hfirst : (p ∈ if c ∈ blk.targets
            then listed (n : Int) (ps c) else ps c)
            ↔ p ∈ ps c ∨ (p = (n : Int) ∧ c ∈ blk.targets) := by
          split
          · next hc => simp [mem_listed, hc]
          · next hc => simp [hc]
        rw [hmem, hfirst, or_assoc]
        refine or_congr Iff.rfl ?_
        constructor
        · rintro (⟨rfl, hc⟩ | ⟨i, b, hb, rfl, hc⟩)
          · exact ⟨0, blk, rfl, by simp, hc⟩
          · exact ⟨i + 1, b, by simpa using hb, by push_cast; ring, hc⟩
        · rintro ⟨i, b, hb, rfl, hc⟩
          cases i with
          | zero =>
              rw [List.getElem?_cons_zero, Option.some.injEq] at hb
              subst hb
              exact Or.inl ⟨by simp, hc⟩
          | succ i =>
              exact Or.inr ⟨i, b, by simpa using hb, by push_cast; ring, hc⟩

/-- Rebuilding the predecessor lists: every edge is listed, once, and nothing
else is. -/
theorem recomputePreds_listing {bs : List Block} (hbs : f.blocks = bs.map some)
    (hex : ∀ blk ∈ bs, ∀ t ∈ blk.targets, ∃ tb, f.block? t = some tb) :
    ∃ g ps, f.recomputePreds = .ok g ∧ f.Listing g ps ∧ (∀ c, (ps c).Nodup)
      ∧ ∀ c p, p ∈ ps c ↔ ∃ pb, f.block? p = some pb ∧ c ∈ pb.targets := by
  have hbare :
      f.Listing ((f.mapBlocks fun b => { b with preds := [] }).record .clear)
      fun _ => [] := by
    refine ⟨⟨rfl, rfl, rfl, rfl, rfl, rfl⟩, ?_, fun c => ?_⟩
    · rw [blocks_record, length_mapBlocks]
    · rw [block?_record, block?_mapBlocks]
      rfl
  obtain ⟨g, ps, hg, hl, hnd, hmem⟩ :=
    connectBlocks bs 0 hbare (fun _ => List.nodup_nil) hex
  refine ⟨g, ps, ?_, hl, hnd, fun c p => ?_⟩
  · unfold recomputePreds
    rw [present_eq_ok.mpr hbs, given_ok, ok_bind]
    exact hg
  · rw [hmem]
    constructor
    · rintro (hp | ⟨i, blk, hi, rfl, hc⟩)
      · cases hp
      · refine ⟨blk, ?_, hc⟩
        rw [Nat.zero_add, block?_of_blocks hbs, hi]
    · rintro ⟨pb, hpb, hc⟩
      obtain ⟨i, rfl, -⟩ := block?_eq_some_iff.mp hpb
      rw [block?_of_blocks hbs] at hpb
      exact Or.inr ⟨i, pb, hpb, by simp, hc⟩

end Func

end MirBackend
