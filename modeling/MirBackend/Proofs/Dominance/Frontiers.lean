/-
Dominance frontiers.

The dominance of a block ends at a join: it dominates a block from which an edge
leads there, and is the join itself or does not dominate it (`Func.InFrontier`).
The computation goes up the tree from the predecessors of every join and stops
at the join's parent. What it passes on the way are the blocks that dominate the
predecessor and do not dominate the parent (`Exact.climbsBelow_iff`), and to
dominate the parent is to dominate the join and be another block.

The entry is a join when control comes back to it, though it has no parent; then
the way up ends at the top of the tree. A block with one predecessor is passed
over. Any other block has its predecessor for a parent then, so nothing is lost.
But control that comes back to the entry by one edge only joins the control that
begins there, and the frontiers that the entry is in are not told
(`compute_frontiers`).
-/
import Mathlib
import MirBackend.Proofs.Dominance.Tree
import MirBackend.Proofs.Func.Places

namespace MirBackend

/-- The dominance of `a` ends at `j`: it dominates a predecessor of `j` that
control reaches, but does not strictly dominate `j`. -/
def Func.InFrontier (f : Func) (a j : BlockId) : Prop :=
  (∃ p, f.Reachable p ∧ f.HasEdge p j ∧ f.Dominates a p)
  ∧ ¬ (f.Dominates a j ∧ a ≠ j)

namespace Dominance

variable {f : Func} {t : Tree} {a b d p stop : BlockId}
  {j k : Nat} {blk : Block}

-- ================================================================ climbing

namespace Tree

/-- Climbing from a block comes to `a` before it comes to `stop`. -/
inductive ClimbsBelow (t : Tree) (stop a : BlockId) : BlockId → Prop where
  | here (apart : a ≠ stop) : ClimbsBelow t stop a a
  | up {b d : BlockId} (apart : b ≠ stop) (parent : t[b]? = some d)
      (rest : ClimbsBelow t stop a d) : ClimbsBelow t stop a b

/-- What the bounded climb finds is above the block. -/
theorem climbs_of_climbsTo {fuel : Nat} (h : climbsTo t a fuel b = true) :
    Climbs t b a := by
  induction fuel generalizing b with
  | zero => cases h
  | succ fuel ih =>
      rw [climbsTo] at h
      by_cases hab : a = b
      · exact hab ▸ .refl t a
      rw [if_neg hab] at h
      cases hd : t[b]? with
      | none =>
          rw [hd] at h
          cases h
      | some d =>
          rw [hd] at h
          exact (ih h).head hd

namespace Exact

/-- The parent of a block, in the words of dominance. -/
theorem of_parent (h : Exact f t) (hb : f.Reachable b) (hd : t[b]? = some d) :
    d ≠ b ∧ f.Dominates d b ∧ ∀ a, f.Dominates a b → a ≠ b →
      f.Dominates a d := by
  have hne : b ≠ f.entry := by
    rintro rfl
    rw [h.entry] at hd
    cases hd
  obtain ⟨d', hd', hrest⟩ := h.parent b hb hne
  rw [hd, Option.some.injEq] at hd'
  exact hd' ▸ hrest

/-- In an exact tree climbing is dominance. -/
theorem climbs_iff (h : Exact f t) (hb : f.Reachable b) :
    Climbs t b a ↔ f.Dominates a b := by
  constructor
  · intro hc
    induction hc using Relation.ReflTransGen.head_induction_on with
    | refl => exact fun _ hwalk => hwalk.mem_self
    | @head b d hd _ ih =>
        obtain ⟨-, hdom, -⟩ := h.of_parent hb hd
        exact (ih (hdom.reachable hb)).trans hdom
  · intro hdom
    exact climbs_of_climbsTo ((h.dominates_iff a b hb).mpr hdom)

/-- What dominates a block and is another one dominates its parent, and the
other way round. -/
theorem dominates_parent_iff (h : Exact f t) (hb : f.Reachable b)
    (hd : t[b]? = some d) : f.Dominates a d ↔ f.Dominates a b ∧ a ≠ b := by
  obtain ⟨hne, hdom, hleast⟩ := h.of_parent hb hd
  constructor
  · intro had
    refine ⟨had.trans hdom, ?_⟩
    rintro rfl
    exact hne (hdom.antisymm had hb)
  · intro hab
    exact hleast a hab.1 hab.2

/-- The way up to `stop` passes what is above the block, but not above a `stop`
that is above the block too. -/
theorem climbsBelow_iff (h : Exact f t) (hp : f.Reachable p) :
    ClimbsBelow t stop a p ↔ Climbs t p a
        ∧ ¬ (Climbs t p stop ∧ Climbs t stop a) := by
  constructor
  · intro hbelow
    induction hbelow with
    | here apart =>
        refine ⟨.refl t a, fun hstop => apart ?_⟩
        have hreach := ((h.climbs_iff hp).mp hstop.1).reachable hp
        exact ((h.climbs_iff hreach).mp hstop.2).antisymm
          ((h.climbs_iff hp).mp hstop.1) hreach
    | @up b d apart hd _ ih =>
        obtain ⟨-, hdom, -⟩ := h.of_parent hp hd
        obtain ⟨hda, hnot⟩ := ih (hdom.reachable hp)
        exact ⟨hda.head hd, fun hstop =>
          hnot ⟨hstop.1.of_ne apart.symm hd, hstop.2⟩⟩
  · rintro ⟨hc, hnot⟩
    induction hc using Relation.ReflTransGen.head_induction_on with
    | refl =>
        refine .here ?_
        rintro rfl
        exact hnot ⟨.refl t a, .refl t a⟩
    | @head b d hd hda ih =>
        obtain ⟨-, hdom, -⟩ := h.of_parent hp hd
        refine .up ?_ hd (ih (hdom.reachable hp) fun hstop =>
          hnot ⟨hstop.1.head hd, hstop.2⟩)
        rintro rfl
        exact hnot ⟨.refl t b, .head hd hda⟩

/-- The tree and the entry tell what control reaches. -/
theorem reachable_iff (h : Exact f t) : f.Reachable p
    ↔ p ∈ t ∨ p = f.entry := by
  constructor
  · intro hp
    by_cases hne : p = f.entry
    · exact Or.inr hne
    · obtain ⟨d, hd, -⟩ := h.parent p hp hne
      exact Or.inl (mem_of_getElem? hd)
  · rintro (hp | rfl)
    · by_contra hnot
      obtain ⟨d, hd⟩ := mem_iff_exists.mp hp
      rw [h.unreachable p hnot] at hd
      cases hd
    · exact .entry

end Exact

end Tree

-- ================================================================ one join

namespace Frontiers

variable {df : Frontiers}

/-- No block is in a frontier yet. -/
theorem mem_of_empty : k ∉ (∅ : Frontiers).of a := by
  rw [of, Std.ExtTreeMap.getD_empty]
  exact List.not_mem_nil

/-- A join noted for one block. -/
theorem mem_of_insert : k ∈ of (df.insert b ((df.getD b {}).insert j)) a
    ↔ k ∈ df.of a ∨ (k = j ∧ a = b) := by
  rw [of, of, BitSet.mem_toList, BitSet.mem_toList, Std.ExtTreeMap.getD_insert]
  by_cases hab : b = a
  · subst hab
    rw [if_pos Std.ReflCmp.compare_self,
      BitSet.contains_insert, Bool.or_eq_true,
      decide_eq_true_eq, and_iff_left rfl, @eq_comm _ j]
  · rw [if_neg (by simpa using hab), or_iff_left fun h => hab h.2.symm]

/-- Steps that each add something add all of it. -/
theorem mem_of_foldl {α : Type} {step : Frontiers → α → Frontiers}
    {Adds : α → Prop} {xs : List α}
    (hstep : ∀ x ∈ xs, ∀ df, k ∈ (step df x).of a ↔ k ∈ df.of a ∨ Adds x)
    (df : Frontiers) :
    k ∈ (xs.foldl step df).of a ↔ k ∈ df.of a ∨ ∃ x ∈ xs, Adds x := by
  induction xs generalizing df with
  | nil => simp
  | cons x xs ih =>
      rw [List.foldl_cons, ih fun y hy => hstep y (List.mem_cons_of_mem _ hy),
        hstep x List.mem_cons_self, List.exists_mem_cons_iff, or_assoc]

/-- With steps enough to come to the top, going up notes the join for all that
is passed. -/
theorem mem_of_addUpTo {root : BlockId} (hroot : t[root]? = none) {fuel : Nat}
    (henough : t.climbsTo root fuel b = true) :
    k ∈ (addUpTo t stop j fuel b df).of a
      ↔ k ∈ df.of a ∨ (k = j ∧ Tree.ClimbsBelow t stop a b) := by
  induction fuel generalizing b df with
  | zero => cases henough
  | succ fuel ih =>
      rw [addUpTo]
      by_cases hstop : b = stop
      · rw [if_pos hstop, or_iff_left]
        rintro ⟨-, hbelow⟩
        cases hbelow with
        | here apart => exact apart hstop
        | up apart => exact apart hstop
      rw [if_neg hstop]
      cases hd : t[b]? with
      | none =>
          dsimp only
          rw [mem_of_insert]
          refine or_congr Iff.rfl (and_congr Iff.rfl ⟨?_, fun hbelow => ?_⟩)
          · rintro rfl
            exact .here hstop
          · cases hbelow with
            | here => rfl
            | up _ hup =>
                rw [hd] at hup
                cases hup
      | some up =>
          have hnext : t.climbsTo root fuel up = true := by
            rw [Tree.climbsTo, hd, if_neg] at henough
            · exact henough
            · rintro rfl
              rw [hroot] at hd
              cases hd
          dsimp only
          rw [ih hnext, mem_of_insert, or_assoc, ← and_or_left]
          refine or_congr Iff.rfl (and_congr Iff.rfl ⟨?_, fun hbelow => ?_⟩)
          · rintro (rfl | hbelow)
            · exact .here hstop
            · exact .up hstop hd hbelow
          · cases hbelow with
            | here => exact Or.inl rfl
            | up _ hup hrest =>
                rw [hd, Option.some.injEq] at hup
                exact Or.inr (hup ▸ hrest)

/-- Going up from a block that control reaches, in the tree of the function. -/
theorem mem_of_addUpTo_size (h : t.Exact f) (hp : f.Reachable p) :
    k ∈ (addUpTo t stop j (t.size + 1) p df).of a
      ↔ k ∈ df.of a ∨ (k = j ∧ f.Dominates a p
        ∧ ¬ (f.Dominates stop p ∧ Tree.Climbs t stop a)) := by
  have hentry : f.Dominates f.entry p := fun _ hwalk => hwalk.entry_mem
  rw [mem_of_addUpTo h.entry ((h.dominates_iff f.entry p hp).mpr hentry),
    h.climbsBelow_iff hp, h.climbs_iff hp, h.climbs_iff hp]

/-- The predecessors that the computation goes up from. -/
theorem mem_preds_reached (hf : f.PredsExact) (h : t.Exact f)
    (hb : f.block? b = some blk) :
    p ∈ blk.preds.filter (fun p => t.contains p || p == f.entry) ↔ f.Reachable p
        ∧ f.HasEdge p b := by
  rw [List.mem_filter, hf.preds b blk hb, Bool.or_eq_true,
    beq_iff_eq, h.reachable_iff, Std.ExtTreeMap.contains_iff_mem, and_comm]

/-- A block other than the entry with at most one predecessor is in no frontier:
its predecessor is its parent. -/
theorem not_inFrontier_of_lone (hf : f.PredsExact) (hb : f.block? b = some blk)
    (hne : b ≠ f.entry) (hlone : blk.preds.length < 2) :
    ¬ f.InFrontier a b := by
  rintro ⟨⟨p, hp, hedge, hdom⟩, hnot⟩
  have hmem (q : BlockId) (hq : f.HasEdge q b) : q ∈ blk.preds :=
    (hf.preds b blk hb q).mpr hq
  have honly (q : BlockId) (hq : f.HasEdge q b) : q = p := by
    have hpos := List.length_pos_of_mem (hmem p hedge)
    obtain ⟨r, hr⟩ :=
      List.length_eq_one_iff.mp (by omega : blk.preds.length = 1)
    rw [hr] at hmem
    rw [List.mem_singleton.mp (hmem q hq), List.mem_singleton.mp (hmem p hedge)]
  have hpb : f.Dominates p b := by
    intro trail hwalk
    cases hwalk with
    | start => exact absurd rfl hne
    | step hwalk hedge _ =>
      exact List.mem_cons_of_mem _ (honly _ hedge ▸ hwalk.mem_self)
  refine hnot ⟨hdom.trans hpb, ?_⟩
  rintro rfl
  -- then the block would be its own only predecessor, and control would never
  -- come to it
  have hself : a = p := hdom.antisymm hpb hp
  refine (hp.step hedge (Func.hasBlock_of_block? hb)).induct
    (P := fun c => c ≠ a) hne.symm ?_ rfl
  rintro q c - hq hcome - rfl
  exact hq ((honly q hcome).trans hself.symm)

/-- Where the way up ends: below the parent of the join, or at the top if the
join is the entry. What is passed does not strictly dominate the join. -/
theorem stop_iff (h : t.Exact f) (hb : f.hasBlock b = true)
    (hin : b ∈ t ∨ b = f.entry) (hp : f.Reachable p) (hedge : f.HasEdge p b) :
    f.Dominates (t.getD b noBlock) p ∧ Tree.Climbs t (t.getD b noBlock) a
      ↔ f.Dominates a b ∧ a ≠ b := by
  have hreach := hp.step hedge hb
  rw [Std.ExtTreeMap.getD_eq_getD_getElem?]
  by_cases hentry : b = f.entry
  · have hnone : ¬ f.Dominates noBlock p := by
      intro hdom
      obtain ⟨pb, hpb, -⟩ := hedge
      rcases (hdom.reachable hp).cases with hno | ⟨-, -, -, hno⟩
      · rw [← hentry] at hno
        rw [← hno] at hb
        cases hb
      · cases hno
    rw [hentry, h.entry, Option.getD_none]
    exact ⟨fun hpass => absurd hpass.1 hnone,
      fun hdom => absurd (Tree.dominates_entry hdom.1) hdom.2⟩
  · obtain ⟨d, hd⟩ := Tree.mem_iff_exists.mp (hin.resolve_right hentry)
    obtain ⟨hne, hdom, -⟩ := h.of_parent hreach hd
    rw [hd, Option.getD_some, h.climbs_iff (hdom.reachable hreach),
      h.dominates_parent_iff hreach hd]
    exact and_iff_right (Tree.dominates_pred hdom hne hedge hb)

/-- What one block adds as a join: itself, to the frontiers it is in. The entry
counts if it has two predecessors. -/
theorem mem_of_addJoin (hf : f.PredsExact) (h : t.Exact f)
    (hj : f.block? j = some blk) : k ∈ (addJoin f t df blk j).of a ↔ k ∈ df.of a
      ∨ (k = j ∧ f.InFrontier a j
        ∧ ((j : BlockId) = f.entry → 2 ≤ blk.preds.length)) := by
  have hhere := Func.hasBlock_of_block? hj
  rw [addJoin]
  by_cases hlone : blk.preds.length < 2
  · rw [if_pos hlone, or_iff_left]
    rintro ⟨-, hin, hentry⟩
    by_cases hne : (j : BlockId) = f.entry
    · exact absurd (hentry hne) (by omega)
    · exact not_inFrontier_of_lone hf hj hne hlone hin
  have htwo : ((j : BlockId) = f.entry → 2 ≤ blk.preds.length) :=
    fun _ => Nat.le_of_not_lt hlone
  rw [if_neg hlone, and_iff_left htwo]
  by_cases hin : (j : BlockId) ∈ t ∨ (j : BlockId) = f.entry
  · have hkeep : ¬ (t[(j : BlockId)]?.isNone && (j : BlockId) != f.entry)
        = true := by
      rw [Bool.and_eq_true, Option.isNone_iff_eq_none, bne_iff_ne]
      rintro ⟨hnone, hne⟩
      obtain ⟨d, hd⟩ := Tree.mem_iff_exists.mp (hin.resolve_right hne)
      rw [hnone] at hd
      cases hd
    rw [if_neg hkeep]
    have hstep (p : BlockId)
        (hp : p ∈ blk.preds.filter (fun p => t.contains p || p == f.entry))
        (df : Frontiers) :
            k ∈ (addUpTo t (t.getD (j : BlockId) noBlock) j
            (t.size + 1) p df).of a
          ↔ k ∈ df.of a ∨ (k = j ∧ f.Dominates a p
            ∧ ¬ (f.Dominates (t.getD (j : BlockId) noBlock) p
              ∧ Tree.Climbs t (t.getD (j : BlockId) noBlock) a)) :=
      mem_of_addUpTo_size h ((mem_preds_reached hf h hj).mp hp).1
    refine (mem_of_foldl hstep df).trans (or_congr Iff.rfl ⟨?_, ?_⟩)
    · rintro ⟨p, hp, rfl, hdom, hnot⟩
      obtain ⟨hreach, hedge⟩ := (mem_preds_reached hf h hj).mp hp
      rw [stop_iff h hhere hin hreach hedge] at hnot
      exact ⟨rfl, ⟨p, hreach, hedge, hdom⟩, hnot⟩
    · rintro ⟨rfl, ⟨p, hreach, hedge, hdom⟩, hnot⟩
      refine ⟨p, (mem_preds_reached hf h hj).mpr ⟨hreach, hedge⟩, rfl, hdom, ?_⟩
      rwa [stop_iff h hhere hin hreach hedge]
  · -- the join is not in the tree, so no predecessor is reached
    rw [not_or] at hin
    have hnone : t[(j : BlockId)]? = none :=
      Std.ExtTreeMap.getElem?_eq_none hin.1
    rw [if_pos
      (by rw [hnone, Option.isNone_none, Bool.true_and, bne_iff_ne]; exact hin.2), or_iff_left]
    rintro ⟨-, ⟨p, hp, hedge, -⟩, -⟩
    exact (h.reachable_iff.mp (hp.step hedge hhere)).elim hin.1 hin.2

-- ================================================================== result

/-- The dominance frontiers of a function with exact predecessor lists, computed
over its dominator tree. A block is in the frontier of `a` exactly if the
dominance of `a` ends there and, should it be the entry, two predecessors are
listed for it. Blocks that control does not reach have empty frontiers. -/
theorem compute_frontiers (hf : f.PredsExact) :
    ∃ t df, Tree.compute f = .ok t ∧ compute f t = .ok df
      ∧ (∀ (a : BlockId) (j : Nat) (blk : Block), f.block? j = some blk →
          (j ∈ df.of a ↔ f.InFrontier a j
            ∧ ((j : BlockId) = f.entry → 2 ≤ blk.preds.length)))
      ∧ (∀ a, ∀ j ∈ df.of a, f.hasBlock j = true)
      ∧ ∀ a, ¬ f.Reachable a → df.of a = [] := by
  obtain ⟨t, ht, -, hexact⟩ := Tree.compute_exact hf
  obtain ⟨bs, hbs, hblocks⟩ := Func.present_of_full hf.full
  obtain ⟨df, hdf⟩ : ∃ df : Frontiers,
      df = bs.zipIdx.foldl (fun df x => addJoin f t df x.1 x.2) ∅ := ⟨_, rfl⟩
  have hat (x : Block × Nat) (hx : x ∈ bs.zipIdx) :
      f.block? x.2 = some x.1 := by
    rw [Func.block?_of_blocks hblocks]
    exact List.mk_mem_zipIdx_iff_getElem?.mp hx
  have hmem (a : BlockId) (k : Nat) : k ∈ df.of a ↔ ∃ x ∈ bs.zipIdx, k = x.2
      ∧ f.InFrontier a x.2
      ∧ ((x.2 : BlockId) = f.entry → 2 ≤ x.1.preds.length) := by
    have hstep (x : Block × Nat) (hx : x ∈ bs.zipIdx) (df : Frontiers) :
        k ∈ (addJoin f t df x.1 x.2).of a ↔ k ∈ df.of a
          ∨ (k = x.2 ∧ f.InFrontier a x.2
          ∧ ((x.2 : BlockId) = f.entry → 2 ≤ x.1.preds.length)) :=
      mem_of_addJoin hf hexact (hat x hx)
    rw [hdf]
    exact (mem_of_foldl hstep ∅).trans (or_iff_right mem_of_empty)
  refine ⟨t, df, ht, ?_, fun a j blk hj => ?_,
    fun a j hin => ?_, fun a ha => ?_⟩
  · rw [compute, hbs, ok_bind, hdf]
    rfl
  · rw [hmem]
    constructor
    · rintro ⟨⟨blk', j'⟩, hx, rfl, hin⟩
      have := hat _ hx
      rw [hj, Option.some.injEq] at this
      exact this ▸ hin
    · intro hin
      refine ⟨(blk, j), List.mk_mem_zipIdx_iff_getElem?.mpr ?_, rfl, hin⟩
      rwa [← Func.block?_of_blocks hblocks]
  · obtain ⟨x, hx, rfl, -⟩ := (hmem a j).mp hin
    exact Func.hasBlock_of_block? (hat x hx)
  · refine List.eq_nil_iff_forall_not_mem.mpr fun j hin => ha ?_
    obtain ⟨x, -, rfl, ⟨⟨p, hp, -, hdom⟩, -⟩, -⟩ := (hmem a j).mp hin
    exact hdom.reachable hp

/-- Two blocks that jump to each other are joins, and one of them is a join of
its own. The edge back to the entry is the only one, and no frontier tells
it. -/
theorem compute_frontiers_knot :
    Tree.knot.PredsExact
    ∧ ((Tree.compute Tree.knot).bind (compute Tree.knot)).toOption.map
        (fun df => (List.range 6).map fun b => df.of b)
          = some [[], [2], [1, 2], [], [], []]
    ∧ Tree.knot.InFrontier 3 Tree.knot.entry
    ∧ ∃ t df, Tree.compute Tree.knot = .ok t ∧ compute Tree.knot t = .ok df
      ∧ (∀ (a : BlockId) (j : Nat) (blk : Block),
            Tree.knot.block? j = some blk →
          (j ∈ df.of a ↔ Tree.knot.InFrontier a j
            ∧ ((j : BlockId) = Tree.knot.entry → 2 ≤ blk.preds.length)))
      ∧ (∀ a, ∀ j ∈ df.of a, Tree.knot.hasBlock j = true)
      ∧ ∀ a, ¬ Tree.knot.Reachable a → df.of a = [] := by
  have hvalid : Tree.knot.validate = .ok () := rfl
  have hf : Tree.knot.PredsExact :=
    (Func.validate_eq_ok_iff.mp hvalid).predsExact
  have hleave : Tree.knot.Reachable 3 :=
    (Func.Reachable.entry.step (b := 1) ⟨_, rfl, by decide⟩ rfl).step ⟨_,
    rfl, by decide⟩ rfl
  refine ⟨hf, by decide,
    ⟨⟨3, hleave, ⟨_, rfl, by decide⟩, fun _ hwalk => hwalk.mem_self⟩, ?_⟩,
    compute_frontiers hf⟩
  exact fun hdom => hdom.2 (Tree.dominates_entry hdom.1)

end Frontiers

end Dominance

end MirBackend
