/-
Removing the blocks that control cannot reach.

The kept blocks move up in their order, so the number of a block becomes the
number of kept blocks before it. `new?_eq_some` and `kept_getElem?` say that
this is the place where the block stands in the list of kept blocks; from them
the compacted function is read off block by block (`CompactOf`). Targets of a
kept block are kept, since control reaches them, so every renumbering that the
removal asks for is there, and the rebuilt predecessor lists repeat the
renumbered edges.
-/
import Mathlib
import MirBackend.Proofs.Pass.Removal

namespace MirBackend

namespace DeadCode

-- ========================================================== places of kept

/-- The places of the elements that a test picks from an initial segment. -/
theorem filter_range_getElem? (p : Nat → Bool) (m n i : Nat) :
    ((List.range m).filter p)[n]? = some i
      ↔ i < m ∧ p i = true ∧ (List.range i).countP p = n := by
  induction m with
  | zero => simp
  | succ m ih =>
      have hlen : ((List.range m).filter p).length = (List.range m).countP p :=
        (List.countP_eq_length_filter).symm
      rw [List.range_succ, List.filter_append]
      by_cases hn : n < (List.range m).countP p
      · rw [List.getElem?_append_left (by omega), ih]
        constructor
        · rintro ⟨hi, hp, hc⟩
          exact ⟨by omega, hp, hc⟩
        · rintro ⟨hi, hp, hc⟩
          refine ⟨?_, hp, hc⟩
          rcases Nat.lt_succ_iff_lt_or_eq.mp hi with hi | rfl
          · exact hi
          · omega
      · rw [List.getElem?_append_right (by omega), hlen]
        cases hpm : p m with
        | false =>
            rw [List.filter_cons_of_neg (by simp [hpm]), List.filter_nil,
              List.getElem?_nil]
            constructor
            · intro h
              cases h
            · rintro ⟨hi, hp, hc⟩
              exfalso
              rcases Nat.lt_succ_iff_lt_or_eq.mp hi with hi | rfl
              · -- an element before `m` has its place before the end
                have hn' := ih.mpr ⟨hi, hp, hc⟩
                have := (List.getElem?_eq_some_iff.mp hn').1
                omega
              · rw [hpm] at hp
                cases hp
        | true =>
            rw [List.filter_cons_of_pos hpm, List.filter_nil]
            constructor
            · intro h
              obtain ⟨hk, hkm⟩ := List.getElem?_eq_some_iff.mp h
              simp only [List.length_cons, List.length_nil,
                List.getElem_singleton] at hk hkm
              subst hkm
              exact ⟨Nat.lt_succ_self _, hpm, by omega⟩
            · rintro ⟨hi, hp, hc⟩
              rcases Nat.lt_succ_iff_lt_or_eq.mp hi with hi | rfl
              · have hn' := ih.mpr ⟨hi, hp, hc⟩
                have := (List.getElem?_eq_some_iff.mp hn').1
                omega
              · rw [hc, Nat.sub_self]
                rfl

namespace Renumbering

variable {r : Renumbering}

/-- The new number of a block is its place among the kept ones. -/
theorem new?_eq_some {b c : BlockId} :
    r.new? b = some c ↔ ∃ i n : Nat, b = i ∧ c = n
      ∧ ((List.range r.count).filter r.kept.contains)[n]? = some i := by
  simp only [filter_range_getElem?]
  cases b with
  | negSucc i =>
      constructor
      · intro h
        cases h
      · rintro ⟨j, n, hj, -⟩
        cases hj
  | ofNat i =>
      simp only [new?]
      constructor
      · intro h
        split at h
        · next hi =>
          rw [Option.some.injEq] at h
          exact ⟨i, _, rfl, h.symm, hi.1, hi.2, rfl⟩
        · cases h
      · rintro ⟨j, n, hj, rfl, hlt, hk, hc⟩
        rw [Int.ofNat_eq_natCast, Nat.cast_inj] at hj
        subst hj
        rw [if_pos ⟨hlt, hk⟩, hc]

/-- Different blocks get different numbers. -/
theorem new?_inj {a b c : BlockId} (ha : r.new? a = some c)
    (hb : r.new? b = some c) : a = b := by
  obtain ⟨i, n, rfl, rfl, hi⟩ := new?_eq_some.mp ha
  obtain ⟨j, k, rfl, hk, hj⟩ := new?_eq_some.mp hb
  rw [Nat.cast_inj] at hk
  subst hk
  rw [hi, Option.some.injEq] at hj
  rw [hj]

/-- The new number, where one was given. -/
def place (r : Renumbering) (b : BlockId) : BlockId := (r.new? b).getD noBlock

/-- A block that stays is put at its new number. -/
theorem place_eq {b c : BlockId} (h : r.new? b = some c) : r.place b = c := by
  simp [place, h]

/-- A kept block as it will be, apart from its predecessors. -/
def moved (r : Renumbering) (b : Block) : Block :=
  { b with term := b.term.map (·.mapTargets r.place), preds := [],
           instrs := b.instrs.map r.instr }

/-- A terminator all of whose targets are kept can be renumbered. -/
theorem term_eq_ok {func : String} {t : Terminator}
    (h : ∀ s ∈ t.targets, ∃ c, r.new? s = some c) :
    r.term func t = .ok (t.mapTargets r.place) := by
  have htarget (s : BlockId) (hs : s ∈ t.targets) :
      r.target func s = .ok (r.place s) := by
    obtain ⟨c, hc⟩ := h s hs
    rw [target, hc, place_eq hc]
  have hpair (a b : BlockId) : a ∈ (if a = b then [a] else [a, b])
      ∧ b ∈ (if a = b then [a] else [a, b]) := by
    split <;> simp_all
  cases t with
  | jump a => rw [term, htarget a (by simp [Terminator.targets])]; rfl
  | branch c a b =>
      rw [term, htarget a (hpair a b).1, htarget b (hpair a b).2]
      rfl
  | branchCmp op l x a b =>
      rw [term, htarget a (hpair a b).1, htarget b (hpair a b).2]
      rfl
  | ret vs => rfl
  | unreachable => rfl

/-- A block all of whose targets are kept can be renumbered. -/
theorem block_eq_ok {func : String} {b : Block}
    (h : ∀ s ∈ b.targets, ∃ c, r.new? s = some c) :
    r.block func b = .ok (r.moved b) := by
  unfold block moved
  cases ht : b.term with
  | none => rfl
  | some t =>
      have hterm : r.term func t = .ok (t.mapTargets r.place) :=
        term_eq_ok fun s hs =>
        h s (by rw [Block.targets, ht]; exact hs)
      simp only [Option.mapM_some, hterm, Option.map_some]
      rfl

-- Renumbering an instruction changes the blocks it names only.
@[simp] theorem isPhi_instr (i : Instr) : (r.instr i).isPhi = i.isPhi := by
  cases i <;> rfl

@[simp] theorem dests_instr (i : Instr) : (r.instr i).dests = i.dests := by
  cases i <;> rfl

theorem instr_eq_missing {i : Instr} : r.instr i = .missing ↔ i = .missing := by
  cases i <;> simp [instr]

/-- An instruction other than a phi is left alone. -/
theorem instr_of_isPhi_eq_false {i : Instr} (h : i.isPhi = false) :
    r.instr i = i := by
  cases i with
  | phi => cases h
  | _ => rfl

/-- A phi after renumbering comes from one; its sources are those whose blocks
are kept. -/
theorem instr_eq_phi {i : Instr} {d : ValueId} {t : Ty} {ss : List PhiSource} :
    r.instr i = .phi d t ss ↔ ∃ ss₀, i = .phi d t ss₀
      ∧ ss = ss₀.filterMap fun s => (r.new? s.block).map fun b =>
      ⟨b, s.value⟩ := by
  cases i with
  | phi d₀ t₀ ss₀ =>
      simp only [instr, Instr.phi.injEq]
      constructor
      · rintro ⟨rfl, rfl, rfl⟩
        exact ⟨ss₀, ⟨rfl, rfl, rfl⟩, rfl⟩
      · rintro ⟨ss₁, ⟨rfl, rfl, rfl⟩, rfl⟩
        exact ⟨rfl, rfl, rfl⟩
  | _ => simp [instr]

/-- The targets of a moved block are the numbers of the old targets. -/
theorem mem_targets_moved {b : Block} {s : BlockId} :
    s ∈ (r.moved b).targets ↔ ∃ u ∈ b.targets, r.place u = s := by
  unfold Block.targets moved
  cases b.term with
  | none => simp [targetsOf]
  | some t => exact Terminator.mem_targets_mapTargets

end Renumbering

-- ============================================================== compaction

/-- Control reaches every block. -/
def AllReachable (f : Func) : Prop := ∀ b, f.hasBlock b = true → f.Reachable b

/-- `g` is `f` with only the blocks that control reaches, renumbered by `r`. -/
structure CompactOf (f g : Func) (r : Renumbering) : Prop where
  params : g.params = f.params
  entry : r.new? f.entry = some g.entry
  /-- The blocks with new numbers are those that control reaches. -/
  kept : ∀ b, (∃ c, r.new? b = some c) ↔ f.Reachable b
  /-- A kept block, moved, with its edges listed. -/
  block : ∀ b c blk, r.new? b = some c → f.block? b = some blk →
    ∃ ps : List BlockId, g.block? c = some ((r.moved blk).withPreds ps)
      ∧ ps.Nodup
      ∧ ∀ p, p ∈ ps ↔ g.HasEdge p c
  /-- There are no others. -/
  onto : ∀ c blk, g.block? c = some blk → ∃ b, r.new? b = some c
  /-- The blocks stand in their old order. -/
  blocks : ∃ bs : List Block, f.blocks = bs.map some
    ∧ g.blocks.map (·.map Block.instrs)
      = (bs.zipIdx.filter fun x => r.kept.contains x.2).map fun x =>
      some (x.1.instrs.map r.instr)

namespace CompactOf

variable {f g : Func} {r : Renumbering} {b c : BlockId} {blk : Block}

/-- Where a block of the compacted function comes from. -/
theorem origin (h : CompactOf f g r) (hwf : f.WellFormed)
    (hc : g.block? c = some blk) :
    ∃ b blk₀ ps, r.new? b = some c ∧ f.Reachable b ∧ f.block? b = some blk₀
      ∧ blk = (r.moved blk₀).withPreds ps ∧ ps.Nodup ∧ ∀ p, p ∈ ps
      ↔ g.HasEdge p c := by
  obtain ⟨b, hb⟩ := h.onto c blk hc
  have hreach := (h.kept b).mp ⟨c, hb⟩
  obtain ⟨blk₀, hblk₀⟩ := hwf.block?_of_reachable hreach
  obtain ⟨ps, hps, hnd, hmem⟩ := h.block b c blk₀ hb hblk₀
  rw [hc, Option.some.injEq] at hps
  exact ⟨b, blk₀, ps, hb, hreach, hblk₀, hps, hnd, hmem⟩

/-- An edge between kept blocks is one of their new numbers. -/
theorem hasEdge (h : CompactOf f g r) {p q : BlockId} (hp : r.new? p = some q)
    (hb : r.new? b = some c) (he : f.HasEdge p b) : g.HasEdge q c := by
  obtain ⟨pb, hpb, hbt⟩ := he
  obtain ⟨ps, hps, -⟩ := h.block p q pb hp hpb
  exact ⟨_, hps, Renumbering.mem_targets_moved.mpr ⟨b, hbt,
    Renumbering.place_eq hb⟩⟩

/-- Every edge of the compacted function is the image of one. -/
theorem hasEdge_origin (h : CompactOf f g r) (hwf : f.WellFormed) {q : BlockId}
    (he : g.HasEdge q c) : ∃ p b, r.new? p = some q ∧ r.new? b = some c
      ∧ f.HasEdge p b := by
  obtain ⟨qb, hqb, hc⟩ := he
  obtain ⟨p, pb, ps, hp, hreach, hpb, rfl, -⟩ := h.origin hwf hqb
  obtain ⟨b, hb, rfl⟩ := Renumbering.mem_targets_moved.mp hc
  obtain ⟨bb, hbb⟩ := hwf.target_exists hpb hb
  obtain ⟨c, hc'⟩ :=
    (h.kept b).mpr (hreach.step ⟨pb, hpb, hb⟩ (Func.hasBlock_of_block? hbb))
  exact ⟨p, b, hp, by rw [hc', Renumbering.place_eq hc'], pb, hpb, hb⟩

/-- A compacted function keeps the structure, and its predecessors are
distinct. -/
theorem wellFormed (h : CompactOf f g r) (hwf : f.WellFormed) :
    g.WellFormed ∧ g.PredsDistinct := by
  obtain ⟨eb, heb, hphi⟩ := hwf.entry
  obtain ⟨es, hes, -⟩ := h.block _ _ eb h.entry heb
  refine ⟨⟨fun o ho => ?_, ⟨_, hes, fun i hi => ?_⟩, fun c blk hc => ?_⟩,
    fun c blk hc => ?_⟩
  · obtain ⟨bs, -, hblocks⟩ := h.blocks
    have hmem : o.map Block.instrs ∈ g.blocks.map (·.map Block.instrs) :=
      List.mem_map.mpr ⟨o, ho, rfl⟩
    rw [hblocks] at hmem
    obtain ⟨x, -, hx⟩ := List.mem_map.mp hmem
    rw [← Option.isSome_map (f := Block.instrs), ← hx]
    rfl
  · obtain ⟨j, hj, rfl⟩ := List.mem_map.mp hi
    rw [Renumbering.isPhi_instr]
    exact hphi j hj
  · obtain ⟨b, blk₀, ps, hb, hreach, hblk₀, rfl, hnd, hps⟩ := h.origin hwf hc
    have hok := hwf.blockOk b blk₀ hblk₀
    refine ⟨?_, fun s hs => ?_, fun p hp => (hps p).mp hp, fun hm => ?_, ?_,
      fun d t ss hphi s hs => (hps _).mpr ?_⟩
    · show (blk₀.term.map _).isSome = true
      rw [Option.isSome_map]
      exact hok.term
    · obtain ⟨u, u', hu, hu', he⟩ := h.hasEdge_origin hwf ⟨_, hc, hs⟩
      obtain ⟨ub, hub⟩ := hwf.block?_of_reachable ((h.kept u').mp ⟨s, hu'⟩)
      obtain ⟨us, hus, -, hmem⟩ := h.block u' s ub hu' hub
      exact ⟨_, hus, (hmem c).mpr ⟨_, hc, hs⟩⟩
    · obtain ⟨j, hj, hjm⟩ := List.mem_map.mp hm
      exact hok.noHole (Renumbering.instr_eq_missing.mp hjm ▸ hj)
    · show PhisLead (blk₀.instrs.map r.instr)
      rw [PhisLead, List.pairwise_map]
      refine hok.phisLead.imp fun {i j} hij => ?_
      rw [Renumbering.isPhi_instr, Renumbering.isPhi_instr]
      exact hij
    · -- a source that stayed comes from a kept predecessor
      obtain ⟨j, hj, hjphi⟩ := List.mem_map.mp hphi
      obtain ⟨ss₀, rfl, rfl⟩ := Renumbering.instr_eq_phi.mp hjphi
      obtain ⟨s₀, hs₀, hnew⟩ := List.mem_filterMap.mp hs
      obtain ⟨n, hn, rfl⟩ := Option.map_eq_some_iff.mp hnew
      exact h.hasEdge hn hb (hok.pred _ (hok.source d t ss₀ hj s₀ hs₀))
  · obtain ⟨b, blk₀, ps, -, -, -, rfl, hnd, -⟩ := h.origin hwf hc
    exact hnd

/-- Control reaches the new number of a block that it reached. -/
theorem reachable (h : CompactOf f g r) (hwf : f.WellFormed)
    (hb : f.Reachable b) : ∀ c, r.new? b = some c → g.Reachable c := by
  refine hb.induct (P := fun b => ∀ c, r.new? b = some c → g.Reachable c) ?_ ?_
  · intro c hc
    rw [h.entry, Option.some.injEq] at hc
    exact hc ▸ .entry
  · intro p b hp ih he _ c hc
    obtain ⟨q, hq⟩ := (h.kept p).mpr hp
    obtain ⟨bb, hbb⟩ := hwf.block?_of_reachable ((h.kept b).mp ⟨c, hc⟩)
    obtain ⟨ps, hps, -⟩ := h.block b c bb hc hbb
    exact (ih q hq).step (h.hasEdge hq hc he) (Func.hasBlock_of_block? hps)

/-- Control reaches every block of a compacted function. -/
theorem allReachable (h : CompactOf f g r) (hwf : f.WellFormed) :
    AllReachable g := by
  intro c hc
  obtain ⟨blk, hblk⟩ := Func.block?_of_hasBlock (h.wellFormed hwf).1.full hc
  obtain ⟨b, hb⟩ := h.onto c blk hblk
  exact h.reachable hwf ((h.kept b).mp ⟨c, hb⟩) c hb

end CompactOf

-- ================================================================= removal

/-- The numbered elements that a test picks by their numbers. -/
theorem filter_zipIdx {α : Type} [Inhabited α] (as : List α) (p : Nat → Bool) :
    as.zipIdx.filter (fun x => p x.2)
      = ((List.range as.length).filter p).map fun i =>
      (as.getD i default, i) := by
  have hzip : as.zipIdx = (List.range as.length).map fun i =>
      (as.getD i default, i) := by
    refine List.ext_getElem (by simp) fun i h₁ h₂ => ?_
    have hi : i < as.length := by simpa using h₁
    simp [hi]
  rw [hzip, List.filter_map]
  rfl

variable {f : Func}

/-- Control reaches all blocks exactly if it reaches as many as there are. -/
theorem size_eq_length_iff {reach : BitSet} (h : f.WellFormed)
    (hreach : ∀ k : Nat, reach.contains k = true ↔ f.Reachable k) :
    reach.size = f.blocks.length ↔ AllReachable f := by
  have hsub : reach.toList ⊆ List.range f.blocks.length := by
    intro k hk
    obtain ⟨blk, hblk⟩ :=
      h.block?_of_reachable ((hreach k).mp (BitSet.mem_toList.mp hk))
    obtain ⟨i, hi, hlt⟩ := Func.hasBlock_iff.mp (Func.hasBlock_of_block? hblk)
    rw [Nat.cast_inj] at hi
    exact List.mem_range.mpr (hi ▸ hlt)
  have hsubperm := (BitSet.toList_nodup reach).subperm hsub
  rw [BitSet.size_eq_length_toList]
  constructor
  · intro hsize b hb
    have hperm := hsubperm.perm_of_length_le (by rw [hsize, List.length_range])
    obtain ⟨i, rfl, hi⟩ := Func.hasBlock_iff.mp hb
    exact (hreach i).mp (BitSet.mem_toList.mp
      (hperm.mem_iff.mpr (List.mem_range.mpr hi)))
  · intro hall
    have hsuper : List.range f.blocks.length ⊆ reach.toList := by
      intro k hk
      refine BitSet.mem_toList.mpr ((hreach k).mpr (hall k ?_))
      exact Func.hasBlock_iff.mpr ⟨k, rfl, List.mem_range.mp hk⟩
    have hperm := hsubperm.antisymm (List.nodup_range.subperm hsuper)
    rw [hperm.length_eq, List.length_range]

section

variable {bs : List Block} {reach : BitSet}

/-- The blocks that the set picks, with their numbers. -/
def keptBlocks (bs : List Block) (reach : BitSet) : List (Block × Nat) :=
  bs.zipIdx.filter fun x => reach.contains x.2

/-- The blocks with new numbers are those that control reaches. -/
theorem new?_iff_reachable (h : f.WellFormed) (hblocks : f.blocks = bs.map some)
    (hreach : ∀ k : Nat, reach.contains k = true ↔ f.Reachable k)
    (b : BlockId) :
    (∃ c, (Renumbering.mk reach bs.length).new? b = some c)
      ↔ f.Reachable b := by
  simp only [Renumbering.new?_eq_some, filter_range_getElem?]
  constructor
  · rintro ⟨c, i, n, rfl, -, -, hi, -⟩
    exact (hreach i).mp hi
  · intro hb
    obtain ⟨blk, hblk⟩ := h.block?_of_reachable hb
    obtain ⟨i, rfl, hi⟩ := Func.block?_eq_some_iff.mp hblk
    have hlt := (List.getElem?_eq_some_iff.mp hi).1
    rw [hblocks, List.length_map] at hlt
    exact ⟨_, i, _, rfl, rfl, hlt, (hreach i).mpr hb, rfl⟩

/-- A kept block stands at its new number. -/
theorem keptBlocks_getElem? (hblocks : f.blocks = bs.map some)
    (n : Nat) (blk : Block) : (∃ i, (keptBlocks bs reach)[n]? = some (blk, i))
      ↔ ∃ b, (Renumbering.mk reach bs.length).new? b = some (n : Int)
      ∧ f.block? b = some blk := by
  rw [keptBlocks, filter_zipIdx bs reach.contains]
  simp only [List.getElem?_map, Option.map_eq_some_iff, Prod.mk.injEq,
    Renumbering.new?_eq_some]
  constructor
  · rintro ⟨i, j, hj, hblk, rfl⟩
    refine ⟨j, ⟨j, n, rfl, rfl, hj⟩, ?_⟩
    have hlt := ((filter_range_getElem? _ _ _ _).mp hj).1
    rw [Func.block?_of_blocks hblocks, List.getElem?_eq_getElem hlt, ← hblk]
    simp [hlt]
  · rintro ⟨b, ⟨i, k, rfl, hk, hi⟩, hblk⟩
    rw [Nat.cast_inj] at hk
    subst hk
    refine ⟨i, i, hi, ?_, rfl⟩
    rw [Func.block?_of_blocks hblocks] at hblk
    rw [List.getD_eq_getElem?_getD, hblk]
    rfl

/-- The kept blocks can all be moved: what they jump to is kept. -/
theorem keptBlocks_mapM (h : f.WellFormed) (hblocks : f.blocks = bs.map some)
    (hreach : ∀ k : Nat, reach.contains k = true ↔ f.Reachable k) :
    ((keptBlocks bs reach).mapM fun x =>
      (Renumbering.mk reach bs.length).block f.name x.1)
      = .ok ((keptBlocks bs reach).map fun x =>
        (Renumbering.mk reach bs.length).moved x.1) := by
  refine mapM_eq_ok_map fun x hx => Renumbering.block_eq_ok fun s hs => ?_
  obtain ⟨n, hn⟩ := List.mem_iff_getElem?.mp hx
  obtain ⟨b, hb, hblk⟩ := (keptBlocks_getElem? hblocks n x.1).mp ⟨x.2, hn⟩
  have hbr := (new?_iff_reachable h hblocks hreach b).mp ⟨n, hb⟩
  obtain ⟨sb, hsb⟩ := h.target_exists hblk hs
  exact (new?_iff_reachable h hblocks hreach s).mpr
    (hbr.step ⟨_, hblk, hs⟩ (Func.hasBlock_of_block? hsb))

/-- A function of the kept blocks, moved: what is found in it. -/
theorem block?_moved {g : Func} (hblocks : f.blocks = bs.map some)
    (hg : g.blocks = ((keptBlocks bs reach).map fun x =>
      (Renumbering.mk reach bs.length).moved x.1).map some)
        {c : BlockId} {cb : Block} :
    g.block? c = some cb ↔ ∃ b blk,
      (Renumbering.mk reach bs.length).new? b = some c
      ∧ f.block? b = some blk
      ∧ cb = (Renumbering.mk reach bs.length).moved blk := by
  constructor
  · intro hc
    obtain ⟨n, rfl, -⟩ := Func.block?_eq_some_iff.mp hc
    rw [Func.block?_of_blocks hg, List.getElem?_map] at hc
    obtain ⟨⟨blk, i⟩, hn, rfl⟩ := Option.map_eq_some_iff.mp hc
    obtain ⟨b, hb, hblk⟩ := (keptBlocks_getElem? hblocks n blk).mp ⟨i, hn⟩
    exact ⟨b, blk, hb, hblk, rfl⟩
  · rintro ⟨b, blk, hb, hblk, rfl⟩
    obtain ⟨-, n, -, rfl, -⟩ := Renumbering.new?_eq_some.mp hb
    obtain ⟨i, hi⟩ := (keptBlocks_getElem? hblocks n blk).mpr ⟨b, hb, hblk⟩
    rw [Func.block?_of_blocks hg, List.getElem?_map, hi]
    rfl

/-- A function of the kept blocks, moved, becomes a compacted one when its
predecessor lists are rebuilt. -/
theorem recomputePreds_compactOf {g : Func} (h : f.WellFormed)
    (hblocks : f.blocks = bs.map some)
    (hreach : ∀ k : Nat, reach.contains k = true ↔ f.Reachable k)
    (hg : g.blocks = ((keptBlocks bs reach).map fun x =>
      (Renumbering.mk reach bs.length).moved x.1).map some)
    (hparams : g.params = f.params)
    (hentry : g.entry = (Renumbering.mk reach bs.length).place f.entry) :
    ∃ g', g.recomputePreds = .ok g' ∧ CompactOf f g' ⟨reach, bs.length⟩ := by
  have hnew := new?_iff_reachable h hblocks hreach
  have hblock {c : BlockId} {cb : Block} : g.block? c = some cb
      ↔ ∃ b blk, (Renumbering.mk reach bs.length).new? b = some c
        ∧ f.block? b = some blk
        ∧ cb = (Renumbering.mk reach bs.length).moved blk :=
    block?_moved hblocks hg
  have htargets : ∀ cb ∈ (keptBlocks bs reach).map
      (fun x => (Renumbering.mk reach bs.length).moved x.1),
      ∀ t ∈ cb.targets, ∃ tb, g.block? t = some tb := by
    intro cb hcb t ht
    obtain ⟨c, hc⟩ := (Func.mem_blocks_iff hg).mp hcb
    obtain ⟨b, blk, hb, hblk, rfl⟩ := hblock.mp hc
    obtain ⟨u, hu, rfl⟩ := Renumbering.mem_targets_moved.mp ht
    obtain ⟨ub, hub⟩ := h.target_exists hblk hu
    obtain ⟨c', hc'⟩ := (hnew u).mpr
      (((hnew b).mp ⟨c, hb⟩).step ⟨_, hblk, hu⟩ (Func.hasBlock_of_block? hub))
    exact ⟨_,
      hblock.mpr ⟨u, ub, by rw [hc', Renumbering.place_eq hc'], hub, rfl⟩⟩
  obtain ⟨g', ps, hg', hl, hnd, hps⟩ := Func.recomputePreds_listing hg htargets
  refine ⟨g', hg', ?_, ?_, hnew, fun b c blk hb hblk => ?_,
    fun c blk hc => ?_, bs, hblocks, ?_⟩
  · rw [hl.header.params, hparams]
  · obtain ⟨e, he⟩ := (hnew f.entry).mpr .entry
    rw [hl.header.entry, hentry, he, Renumbering.place_eq he]
  · refine ⟨ps c, ?_, hnd c, fun p => ?_⟩
    · rw [hl.block c, hblock.mpr ⟨b, blk, hb, hblk, rfl⟩]
      rfl
    · rw [hps, hl.hasEdge]
      rfl
  · rw [hl.block c] at hc
    obtain ⟨cb, hcb, -⟩ := Option.map_eq_some_iff.mp hc
    obtain ⟨b, -, hb, -⟩ := hblock.mp hcb
    exact ⟨b, hb⟩
  · rw [hl.instrs, hg, List.map_map, List.map_map]
    rfl

end

/-- Removing unreachable blocks keeps those that control reaches. -/
theorem removeUnreachable_spec (h : f.WellFormed) :
    ∃ m g, removeUnreachable f = .ok (m, g)
      ∧ ((g = f ∧ AllReachable f) ∨ ∃ r, CompactOf f g r) := by
  obtain ⟨eb, heb, -⟩ := h.entry
  obtain ⟨reach, hreach, hmem⟩ :=
    Func.reachable_spec h.full (Func.hasBlock_of_block? heb)
  have hentry : reach.containsInt f.entry = true := by
    obtain ⟨e, he, -⟩ := Func.block?_eq_some_iff.mp heb
    rw [he]
    exact (hmem e).mpr (he ▸ .entry)
  unfold removeUnreachable
  simp only [hreach, given_ok, ok_bind, hentry, Bool.not_true,
    Bool.false_eq_true, if_false]
  by_cases hsize : reach.size = f.blocks.length
  · rw [if_pos hsize]
    exact ⟨false, f, rfl, Or.inl ⟨rfl, (size_eq_length_iff h hmem).mp hsize⟩⟩
  · rw [if_neg hsize]
    obtain ⟨bs, hbs, hblocks⟩ := h.present
    obtain ⟨g, hg, hcompact⟩ :=
      recomputePreds_compactOf (g := Func.record { f with
      blocks :=
        ((keptBlocks bs reach).map fun x =>
        (Renumbering.mk reach bs.length).moved x.1).map some
      entry := (Renumbering.mk reach bs.length).place f.entry }
        (.keep ((keptBlocks bs reach).map fun x => x.2))) h
        hblocks hmem rfl rfl rfl
    refine ⟨true, g, ?_, Or.inr ⟨_, hcompact⟩⟩
    rw [hbs, given_ok, ok_bind]
    show (given f ((keptBlocks bs reach).mapM _) >>= _) = _
    rw [keptBlocks_mapM h hblocks hmem, given_ok, ok_bind]
    exact bind_eq_ok.mpr ⟨g, hg, rfl⟩

-- ============================================================ both removals

/-- Trimming leaves every block reachable. -/
theorem AllReachable.trimmed {g : Func} (h : AllReachable f)
    (ht : f.Trimmed g) : AllReachable g := by
  intro b hb
  refine ht.reachable_iff.mpr (h b ?_)
  rw [Func.hasBlock_iff] at hb ⊢
  rwa [ht.length_eq] at hb

/-- Both removals answer, through a function of reachable blocks only. -/
theorem run_spec (h : f.WellFormed) :
    ∃ m k g, run f = .ok (m, g)
        ∧ ((k = f ∧ AllReachable f) ∨ ∃ r, CompactOf f k r)
      ∧ k.WellFormed ∧ AllReachable k ∧ k.Trimmed g ∧ Tidy g := by
  obtain ⟨m₁, k, hk, hcases⟩ := removeUnreachable_spec h
  have hwf : k.WellFormed ∧ AllReachable k := by
    rcases hcases with ⟨rfl, hall⟩ | ⟨r, hr⟩
    · exact ⟨h, hall⟩
    · exact ⟨(hr.wellFormed h).1, hr.allReachable h⟩
  obtain ⟨m₂, g, hg, htrim, htidy⟩ := removeDead_spec hwf.1
  refine ⟨m₁ || m₂, k, g, ?_, hcases, hwf.1, hwf.2, htrim, htidy⟩
  rw [run, Func.instrCount_eq_sum h, given_ok, ok_bind, hk, ok_bind]
  dsimp only
  rw [hg]
  rfl

/-- What the removals leave is sound in structure, and control reaches all of
it. -/
theorem run_wellFormed (h : f.WellFormed) (hd : f.PredsDistinct) :
    ∃ m g, run f = .ok (m, g) ∧ g.WellFormed ∧ g.PredsDistinct
        ∧ AllReachable g ∧ Tidy g := by
  obtain ⟨m, k, g, hg, hcases, hwf, hall, htrim, htidy⟩ := run_spec h
  have hkd : k.PredsDistinct := by
    rcases hcases with ⟨rfl, -⟩ | ⟨r, hr⟩
    · exact hd
    · exact (hr.wellFormed h).2
  exact ⟨m, g, hg, htrim.wellFormed hwf, htrim.predsDistinct hkd,
    hall.trimmed htrim, htidy⟩

end DeadCode

end MirBackend
