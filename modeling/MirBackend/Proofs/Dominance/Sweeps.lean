/-
Sweeping the tree of parents until it is stable.

A sweep walks a tree that is wrong in places, so it needs to be said what is
right about a tree in the making. `Growing` says it: no parent is too near the
entry (what dominates a block is above it, `covers`), and no parent is moved
away from the entry by computing it again (`near`). The second is what makes
the iteration end: a parent that changes moves up, so the places of the parents
add up to less with every change.

`near` survives the change of one block `b` because of a fact about the middle
of a sweep (`Swept`). Blocks behind `b` still have the parents of the sweep
before; where such a parent is below `b`, so are the predecessors it was
computed from (`pending`), and what they have in common above `b` moves with
`b`. Blocks before `b` have parents that stand above their predecessors now
(`settled`), and this is what `pending` becomes in the next sweep.

That `covers` survives rests on the paths along which parents were found
(`Joined`): from a parent to its child there is a path that stays behind the
parent in the order, so what stands before the parent is not on it.
-/
import Mathlib
import MirBackend.Proofs.Dominance.Ancestry

namespace MirBackend

/-- Predecessor lists that say exactly from where edges come. -/
structure Func.PredsExact (f : Func) : Prop where
  full : ∀ o ∈ f.blocks, o.isSome = true
  preds : ∀ b blk, f.block? b = some blk → ∀ p, p ∈ blk.preds ↔ f.HasEdge p b

namespace Dominance.Tree

variable {f : Func} {order : List BlockId} {t t' : Tree}
  {a b c d m p q x y z : BlockId} {i : Nat}

-- ===================================================== the loops, unbounded

/-- One block's parent computed again, and whether it changed. -/
inductive Refines (f : Func) (order : List BlockId) (t : Tree) (b : BlockId) :
    Tree → Bool → Prop where
  | apart {blk : Block} (here : f.block? b = some blk)
      (none : Gathers order t none blk.preds none) : Refines f order t b t false
  | same {blk : Block} {a : BlockId} (here : f.block? b = some blk)
      (found : Gathers order t none blk.preds (some a))
      (same : t[b]? = some a) :
      Refines f order t b t false
  | moved {blk : Block} {a : BlockId} (here : f.block? b = some blk)
      (found : Gathers order t none blk.preds (some a))
      (other : t[b]? ≠ some a) :
      Refines f order t b (t.insert b a) true

/-- One sweep over some blocks, and whether it changed anything. -/
inductive Sweep (f : Func) (order : List BlockId) : List BlockId → Tree →
    Tree → Bool → Prop where
  | done (t : Tree) : Sweep f order [] t t false
  | block {b : BlockId} {bs : List BlockId} {t t₁ t₂ : Tree} {c₁ c₂ : Bool}
      (first : Refines f order t b t₁ c₁) (rest : Sweep f order bs t₁ t₂ c₂) :
      Sweep f order (b :: bs) t t₂ (c₁ || c₂)

/-- Sweeps until one changes nothing. -/
inductive Settles (f : Func) (order : List BlockId) : Tree → Tree → Prop where
  | still {t t' : Tree} (sweep : Sweep f order order.tail t t' false) :
      Settles f order t t'
  | again {t t₁ t' : Tree} (sweep : Sweep f order order.tail t t₁ true)
      (rest : Settles f order t₁ t') : Settles f order t t'

/-- The tree of a function, told without bounds on the loops. -/
inductive Computes (f : Func) : Tree → Prop where
  | nothing (absent : f.hasBlock f.entry = false) : Computes f ∅
  | tree {eb : Block} {order : List BlockId} {t : Tree}
      (here : f.block? f.entry = some eb)
      (walk : (startWalk f eb).Ends f order)
      (sweeps : Settles f order ((∅ : Tree).insert f.entry f.entry) t) :
      Computes f (t.erase f.entry)

-- =============================================================== invariant

/-- A path from `d` to `b` that, once it left `d`, stays where the order has `d`
or later. -/
def Joined (f : Func) (order : List BlockId) (d : BlockId) : BlockId → Prop :=
  Relation.ReflTransGen
    (fun p s => f.HasEdge p s ∧ s ∈ order ∧ order.idxOf d ≤ order.idxOf s) d

/-- What is right about a tree in the making. -/
structure Growing (f : Func) (order : List BlockId) (t : Tree) :
    Prop extends Rooted f order t where
  linked : ∀ b d, t[b]? = some d → Joined f order d b
  covers : ∀ b ∈ t, ∀ a, f.Dominates a b → Climbs t b a
  near : ∀ b d, t[b]? = some d → b ≠ f.entry →
    ∀ c, (∀ p ∈ t, f.HasEdge p b → Climbs t p c) → Climbs t d c

/-- A predecessor that the order has before the block. -/
structure Before (f : Func) (order : List BlockId) (q b : BlockId) : Prop where
  mem : q ∈ order
  edge : f.HasEdge q b
  lt : order.idxOf q < order.idxOf b

/-- A tree in the middle of a sweep that has come to place `i` of the order. -/
structure Swept (f : Func) (order : List BlockId) (i : Nat) (t : Tree) : Prop
    extends Growing f order t where
  early : ∀ b ∈ order, order.idxOf b < i → b ∈ t
  settled : ∀ b d, t[b]? = some d → b ≠ f.entry → order.idxOf b < i →
    ∀ q, Before f order q b → Climbs t q d
  pending : ∀ b d, t[b]? = some d → i ≤ order.idxOf b →
    ∀ q, Before f order q b → ∀ c, i ≤ order.idxOf c →
      Climbs t d c → Climbs t q c

/-- Every block in the order but the entry has a predecessor before it. -/
theorem exists_before (hin : InOrder f order) (hb : b ∈ order)
    (hne : b ≠ f.entry) : ∃ q, Before f order q b := by
  obtain ⟨q, hq, hedge, hlt⟩ := hin.parent b hb hne
  exact ⟨q, hq, hedge, hlt⟩

/-- A path that stays behind a later block stays behind an earlier one. -/
theorem Joined.weaken (hle : order.idxOf d ≤ order.idxOf y)
    (hy : Joined f order d y) (hb : Joined f order y b) :
    Joined f order d b := by
  induction hb with
  | refl => exact hy
  | tail _ hstep ih => exact ih.tail ⟨hstep.1, hstep.2.1, hle.trans hstep.2.2⟩

/-- From what is above a block there is a path to it. -/
theorem Growing.joined (h : Growing f order t) (hc : Climbs t b a) :
    Joined f order a b := by
  induction hc using Relation.ReflTransGen.head_induction_on with
  | refl => exact .refl
  | @head b d hd hda ih => exact ih.weaken (h.climbs_le hda) (h.linked b d hd)

/-- What dominates a child and stands before the parent dominates the parent. -/
theorem Joined.dominates (hin : InOrder f order) (h : Joined f order y x)
    (hdom : f.Dominates a x) (hlt : order.idxOf a < order.idxOf y) :
    f.Dominates a y := by
  induction h with
  | refl => exact hdom
  | @tail p s _ hstep ih =>
      obtain ⟨hedge, hs, hle⟩ := hstep
      refine ih fun trail hwalk => ?_
      have hhere : f.hasBlock s = true ∨ s = f.entry := by
        rcases ((hin.mem_iff s).mp hs).cases with heq | ⟨-, -, -, hhere⟩
        · exact Or.inr heq
        · exact Or.inl hhere
      rcases hhere with hhere | rfl
      · rcases List.mem_cons.mp (hdom _ (hwalk.step hedge hhere)) with rfl
          | hmem
        · omega
        · exact hmem
      · -- nothing but the entry dominates the entry, and nothing stands before it
        have ha : a = f.entry := List.mem_singleton.mp (hdom _ .start)
        subst ha
        omega

/-- The entry is dominated by itself only. -/
theorem dominates_entry (h : f.Dominates a f.entry) : a = f.entry :=
  List.mem_singleton.mp (h _ .start)

/-- What dominates a block and is not the block dominates its reachable
predecessors. -/
theorem dominates_pred (h : f.Dominates a b) (hne : a ≠ b)
    (hedge : f.HasEdge p b) (hb : f.hasBlock b = true) :
    f.Dominates a p := fun _ hwalk =>
  (List.mem_cons.mp (h _ (hwalk.step hedge hb))).resolve_left hne

-- ============================================================= one block

/-- A tree after the parent of the block at place `i` was set to the nearest
common ancestor of its predecessors. -/
structure Recomputed (f : Func) (order : List BlockId) (t : Tree)
    (b m : BlockId) (t' : Tree) : Prop where
  mem : b ∈ order
  ne : b ≠ f.entry
  at_self : t'[b]? = some m
  elsewhere : ∀ x, x ≠ b → t'[x]? = t[x]?
  above : ∀ p ∈ t, f.HasEdge p b → Climbs t p m
  least : ∀ c, (∀ p ∈ t, f.HasEdge p b → Climbs t p c) → Climbs t m c

namespace Recomputed

-- What recomputing one block keeps of a tree that is swept up to it.
theorem mem_of_mem (hr : Recomputed f order t b m t')
    (hx : x ∈ t) : x ∈ t' := by
  by_cases hxb : x = b
  · exact hxb ▸ mem_of_getElem? hr.at_self
  · obtain ⟨d, hd⟩ := mem_iff_exists.mp hx
    exact mem_of_getElem? ((hr.elsewhere x hxb).trans hd)

/-- Climbs that start before `b` in the order do not pass through it. -/
theorem climbs_of_lt (hr : Recomputed f order t b m t') (h : Rooted f order t)
    (hx : order.idxOf x < order.idxOf b) (hc : Climbs t x z) :
    Climbs t' x z := by
  rcases hc.redirect hr.elsewhere with hc | ⟨hxb, -, -⟩
  · exact hc
  · have := h.climbs_le hxb
    omega

/-- The new parent stands before the block, behind none of its earlier
predecessors. -/
theorem parent_spec (hr : Recomputed f order t b m t') (hin : InOrder f order)
    (h : Swept f order (order.idxOf b) t) :
    m ∈ t ∧ ∃ q ∈ t, Before f order q b ∧ Climbs t q m
        ∧ order.idxOf m < order.idxOf b := by
  obtain ⟨q, hq⟩ := exists_before hin hr.mem hr.ne
  have hqt : q ∈ t := h.early q hq.mem hq.lt
  have hqm := hr.above q hqt hq.edge
  exact ⟨h.climbs_mem hqt hqm, q, hqt, hq, hqm,
    (h.climbs_le hqm).trans_lt hq.lt⟩

/-- No block of the tree gets a new block above it. -/
theorem shrink (hr : Recomputed f order t b m t') (hin : InOrder f order)
    (h : Swept f order (order.idxOf b) t) (hx : x ∈ t) (hc : Climbs t' x z) :
    Climbs t x z := by
  induction hc using Relation.ReflTransGen.head_induction_on with
  | refl => exact .refl t z
  | @head x y hxy _ ih =>
      by_cases hxb : x = b
      · subst hxb
        rw [hr.at_self, Option.some.injEq] at hxy
        subst hxy
        obtain ⟨d, hd⟩ := mem_iff_exists.mp hx
        exact ((h.near x d hd hr.ne m hr.above).trans
          (ih (hr.parent_spec hin h).1)).head hd
      · rw [hr.elsewhere x hxb] at hxy
        exact (ih (h.parent x y hxy).2).head hxy

/-- The tree stays rooted. -/
theorem rooted (hr : Recomputed f order t b m t') (hin : InOrder f order)
    (h : Swept f order (order.idxOf b) t) : Rooted f order t' := by
  obtain ⟨hm, -, -, -, -, hlt⟩ := hr.parent_spec hin h
  refine ⟨(hr.elsewhere _ hr.ne.symm).trans h.root, fun x d hd => ?_,
    fun x d hd hne => ?_⟩
  · by_cases hxb : x = b
    · subst hxb
      rw [hr.at_self, Option.some.injEq] at hd
      exact ⟨hr.mem, hr.mem_of_mem (hd ▸ hm)⟩
    · rw [hr.elsewhere x hxb] at hd
      exact ⟨(h.parent x d hd).1, hr.mem_of_mem (h.parent x d hd).2⟩
  · by_cases hxb : x = b
    · subst hxb
      rw [hr.at_self, Option.some.injEq] at hd
      exact hd ▸ hlt
    · rw [hr.elsewhere x hxb] at hd
      exact h.descends x d hd hne

/-- A parent is still joined to its block. -/
theorem linked (hr : Recomputed f order t b m t') (hin : InOrder f order)
    (h : Swept f order (order.idxOf b) t) (hd : t'[x]? = some d) :
    Joined f order d x := by
  by_cases hxb : x = b
  · subst hxb
    obtain ⟨-, q, -, hq, hqm, hlt⟩ := hr.parent_spec hin h
    rw [hr.at_self, Option.some.injEq] at hd
    exact hd ▸ (h.joined hqm).tail ⟨hq.edge, hr.mem, hlt.le⟩
  · rw [hr.elsewhere x hxb] at hd
    exact h.linked x d hd

/-- Before and after, what dominates a block and is not the block stands no
later than the parent. -/
theorem dominator_le (hr : Recomputed f order t b m t') (hin : InOrder f order)
    (h : Swept f order (order.idxOf b) t) (hd : t'[x]? = some y)
    (hdom : f.Dominates a x) (hne : a ≠ x) : order.idxOf a ≤ order.idxOf y := by
  by_cases hxb : x = b
  · subst hxb
    rw [hr.at_self, Option.some.injEq] at hd
    subst hd
    have hhere : f.hasBlock x = true := by
      rcases ((hin.mem_iff x).mp hr.mem).cases with heq | ⟨-, -, -, hhere⟩
      · exact absurd heq hr.ne
      · exact hhere
    refine h.climbs_le (hr.least a fun p hp hedge => ?_)
    exact h.covers p hp a (dominates_pred hdom hne hedge hhere)
  · rw [hr.elsewhere x hxb] at hd
    exact h.climbs_le ((h.covers x (mem_of_getElem? hd) a hdom).of_ne hne hd)

/-- Dominators are still above what they dominate. -/
theorem covers (hr : Recomputed f order t b m t') (hin : InOrder f order)
    (h : Swept f order (order.idxOf b) t) (hx : x ∈ t')
    (hdom : f.Dominates a x) : Climbs t' x a := by
  -- by the place of the block in the order: its parent stands before it
  induction hn : order.idxOf x using Nat.strong_induction_on generalizing x with
  | _ n ih =>
      subst hn
      by_cases hne : a = x
      · exact hne ▸ .refl t' x
      have hentry : x ≠ f.entry := by
        rintro rfl
        exact hne (dominates_entry hdom)
      obtain ⟨y, hy⟩ := mem_iff_exists.mp hx
      have hrooted := hr.rooted hin h
      have hyt := (hrooted.parent x y hy).2
      refine Climbs.head hy ?_
      rcases (hr.dominator_le hin h hy hdom hne).lt_or_eq with hlt | heq
      · exact ih _ (hrooted.descends x y hy hentry) hyt
          ((hr.linked hin h hy).dominates hin hdom hlt) rfl
      · have hya : y = a := (List.idxOf_inj (hrooted.mem_order hyt)).mp heq.symm
        exact hya ▸ .refl t' y

/-- A parent is still the nearest block above all the predecessors. -/
theorem near (hr : Recomputed f order t b m t') (hin : InOrder f order)
    (h : Swept f order (order.idxOf b) t) (hd : t'[x]? = some y)
    (hne : x ≠ f.entry) (hcommon : ∀ p ∈ t', f.HasEdge p x → Climbs t' p c) :
    Climbs t' y c := by
  have hcommon' : ∀ p ∈ t, f.HasEdge p x → Climbs t p c := fun p hp hedge =>
    hr.shrink hin h hp (hcommon p (hr.mem_of_mem hp) hedge)
  by_cases hxb : x = b
  · subst hxb
    obtain ⟨-, q, -, -, -, hlt⟩ := hr.parent_spec hin h
    rw [hr.at_self, Option.some.injEq] at hd
    exact hd ▸ hr.climbs_of_lt h.toRooted hlt (hr.least c hcommon')
  · rw [hr.elsewhere x hxb] at hd
    have hyc := h.near x y hd hne c hcommon'
    rcases hyc.redirect hr.elsewhere with hyc' | ⟨hyb, hyb', hbc⟩
    · exact hyc'
    · -- the parent is below `b`, so an earlier predecessor is, and both move with `b`
      obtain ⟨q, hq⟩ := exists_before hin (h.parent x y hd).1 hne
      have hle : order.idxOf b ≤ order.idxOf x :=
        (h.climbs_le hyb).trans (h.descends x y hd hne).le
      have hqb := h.pending x y hd hle q hq b le_rfl hyb
      have hqb' : Climbs t' q b := by
        rcases hqb.redirect hr.elsewhere with hkept
          | ⟨-, hkept, -⟩ <;> exact hkept
      have hqt' : q ∈ t' := by
        rcases hqb.cases with rfl | ⟨e, he, -⟩
        · exact mem_of_getElem? hr.at_self
        · exact hr.mem_of_mem (mem_of_getElem? he)
      rcases hqb'.linear (hcommon q hqt' hq.edge) with hbc' | hcb'
      · exact hyb'.trans hbc'
      · have hle₁ := (hr.rooted hin h).climbs_le hcb'
        have hle₂ := h.climbs_le hbc
        have heq : b = c := (List.idxOf_inj hr.mem).mp (le_antisymm hle₁ hle₂)
        exact heq ▸ hyb'

/-- Computing one block's parent takes the sweep one place further. -/
theorem swept (hr : Recomputed f order t b m t') (hin : InOrder f order)
    (h : Swept f order (order.idxOf b) t) :
    Swept f order (order.idxOf b + 1) t' := by
  have hrooted := hr.rooted hin h
  refine ⟨⟨hrooted, fun x d hd => hr.linked hin h hd,
    fun x hx a hdom => hr.covers hin h hx hdom,
    fun x d hd hne c hc => hr.near hin h hd hne hc⟩, fun x hx hlt => ?_,
    fun x d hd hne hlt q hq => ?_, fun x d hd hle q hq c hc hdc => ?_⟩
  · by_cases hxb : x = b
    · exact hxb ▸ mem_of_getElem? hr.at_self
    · have hne : order.idxOf x ≠ order.idxOf b :=
        fun heq => hxb ((List.idxOf_inj hx).mp heq)
      exact hr.mem_of_mem (h.early x hx (by omega))
  · have hqlt := hq.lt
    by_cases hxb : x = b
    · subst hxb
      rw [hr.at_self, Option.some.injEq] at hd
      subst hd
      exact hr.climbs_of_lt h.toRooted hqlt
        (hr.above q (h.early q hq.mem hqlt) hq.edge)
    · rw [hr.elsewhere x hxb] at hd
      have hx := (h.parent x d hd).1
      have hne' : order.idxOf x ≠ order.idxOf b :=
        fun heq => hxb ((List.idxOf_inj hx).mp heq)
      exact hr.climbs_of_lt h.toRooted (by omega)
        (h.settled x d hd hne (by omega) q hq)
  · have hxb : x ≠ b := by
      rintro rfl
      omega
    rw [hr.elsewhere x hxb] at hd
    have hdc' := hr.shrink hin h (h.parent x d hd).2 hdc
    rcases (h.pending x d hd (by omega) q hq c (by omega) hdc').redirect
      hr.elsewhere with
      hkept | ⟨-, -, hbc⟩
    · exact hkept
    · have := h.climbs_le hbc
      omega

end Recomputed

-- =================================================================== sweeps

/-- Before the first sweep. -/
theorem swept_start (hin : InOrder f order) :
    Swept f order 1 ((∅ : Tree).insert f.entry f.entry) := by
  obtain ⟨t, ht⟩ : ∃ t : Tree, t = (∅ : Tree).insert f.entry f.entry := ⟨_, rfl⟩
  have hroot : t[f.entry]? = some f.entry := by
    rw [ht, Std.ExtTreeMap.getElem?_insert_self]
  have honly (x d : BlockId) (hd : t[x]? = some d) : x = f.entry
      ∧ d = f.entry := by
    by_cases hx : x = f.entry
    · rw [hx, hroot, Option.some.injEq] at hd
      exact ⟨hx, hd.symm⟩
    · rw [ht, Std.ExtTreeMap.getElem?_insert,
        if_neg (by simpa using fun h => hx h.symm)] at hd
      simp at hd
  have hentry : f.entry ∈ order := List.mem_of_mem_head? hin.head
  rw [← ht]
  refine ⟨⟨⟨hroot, fun x d hd => ?_,
    fun x d hd hne => absurd (honly x d hd).1 hne⟩,
    fun x d hd => ?_, fun x hx a hdom => ?_,
    fun x d hd hne => absurd (honly x d hd).1 hne⟩,
    fun x hx hlt => ?_, fun x d hd hne => absurd (honly x d hd).1 hne,
    fun x d hd hle => ?_⟩
  · obtain ⟨rfl, rfl⟩ := honly x d hd
    exact ⟨hentry, mem_of_getElem? hroot⟩
  · obtain ⟨rfl, rfl⟩ := honly x d hd
    exact .refl
  · obtain ⟨d, hd⟩ := mem_iff_exists.mp hx
    obtain ⟨rfl, -⟩ := honly x d hd
    exact dominates_entry hdom ▸ .refl t _
  · by_cases hne : x = f.entry
    · exact hne ▸ mem_of_getElem? hroot
    · have := Rooted.idxOf_pos hin hne
      omega
  · obtain ⟨rfl, -⟩ := honly x d hd
    exact absurd rfl (Rooted.ne_entry hin hle)

/-- After a sweep everything is settled, and the next one can begin. -/
theorem Swept.restart (hin : InOrder f order)
    (h : Swept f order order.length t) : Swept f order 1 t := by
  have hone : ∀ x ∈ order, x ≠ f.entry → 1 ≤ order.idxOf x := fun x _ hne =>
    Rooted.idxOf_pos hin hne
  refine ⟨h.toGrowing, fun x hx _ =>
    h.early x hx (List.idxOf_lt_length_of_mem hx),
    fun x d hd hne hlt => ?_, fun x d hd hle q hq c _ hdc => ?_⟩
  · have := hone x (h.parent x d hd).1 hne
    omega
  · have hx := (h.parent x d hd).1
    exact (h.settled x d hd (Rooted.ne_entry hin hle)
      (List.idxOf_lt_length_of_mem hx) q hq).trans
      hdc

/-- What the step of the sweep does at the next block: it computes the parent
again, and the flag says whether that changed anything. -/
theorem refine_spec (hf : f.PredsExact) (hin : InOrder f order) (hb : b ∈ order)
    (hne : b ≠ f.entry) (h : Swept f order (order.idxOf b) t) (flag : Bool) :
    ∃ m t' changed, refine f order (t, flag) b = .ok (t', flag || changed)
      ∧ Refines f order t b t' changed ∧ Recomputed f order t b m t'
      ∧ (changed = false → t' = t)
      ∧ (changed = true → t[b]? ≠ some m ∧ t' = t.insert b m) := by
  obtain ⟨q, hq⟩ := exists_before hin hb hne
  have hhere : f.hasBlock b = true := by
    rcases ((hin.mem_iff b).mp hb).cases with heq | ⟨-, -, -, hhere⟩
    · exact absurd heq hne
    · exact hhere
  obtain ⟨blk, hblk⟩ := Func.block?_of_hasBlock hf.full hhere
  obtain ⟨m, hm, hgather, hnear⟩ := commonAncestor_spec h.toRooted hin
    ((hf.preds b blk hblk q).mpr hq.edge) (h.early q hq.mem hq.lt)
  have hmem (p : BlockId) : p ∈ blk.preds.filter (· ∈ t)
      ↔ p ∈ t ∧ f.HasEdge p b := by
    rw [List.mem_filter, decide_eq_true_eq, hf.preds b blk hblk, and_comm]
  have habove : ∀ p ∈ t, f.HasEdge p b → Climbs t p m := fun p hp hedge =>
    hnear.above p ((hmem p).mpr ⟨hp, hedge⟩)
  have hleast : ∀ c, (∀ p ∈ t, f.HasEdge p b → Climbs t p c) →
      Climbs t m c := fun c hc =>
    hnear.least c fun p hp => hc p ((hmem p).mp hp).1 ((hmem p).mp hp).2
  have hrefine : refine f order (t, flag) b
      = if t[b]? = some m then .ok (t, flag) else .ok (t.insert b m, true) := by
    rw [refine, Func.block_eq_ok.mpr hblk, ok_bind, hm]
    rfl
  by_cases hsame : t[b]? = some m
  · exact ⟨m, t, false, by rw [hrefine, if_pos hsame, Bool.or_false],
      .same hblk hgather hsame,
      ⟨hb, hne, hsame, fun _ _ => rfl, habove, hleast⟩, fun _ => rfl, by simp⟩
  · refine ⟨m, t.insert b m, true, by rw [hrefine, if_neg hsame, Bool.or_true],
      .moved hblk hgather hsame, ⟨hb, hne, ?_, fun x hx => ?_,
        habove, hleast⟩, by simp,
      fun _ => ⟨hsame, rfl⟩⟩
    · rw [Std.ExtTreeMap.getElem?_insert_self]
    · rw [Std.ExtTreeMap.getElem?_insert,
        if_neg (by simpa using fun h => hx h.symm)]

-- ============================================================== termination

/-- The places of the parents, added up. -/
def weight (order : List BlockId) (t : Tree) : Nat :=
  (order.map fun b => order.idxOf (t.getD b 0)).sum

/-- A parent that changes moves up. -/
theorem weight_lt (h : Swept f order (order.idxOf b) t)
    (hr : Recomputed f order t b m t') (hb : b ∈ t)
    (hchanged : t[b]? ≠ some m) : weight order t' < weight order t := by
  obtain ⟨d, hd⟩ := mem_iff_exists.mp hb
  have hdm : Climbs t d m := h.near b d hd hr.ne m hr.above
  have hlt : order.idxOf m < order.idxOf d :=
    h.climbs_lt hdm fun heq => hchanged (heq ▸ hd)
  have hself : t'.getD b 0 = m := by
    rw [Std.ExtTreeMap.getD_eq_getD_getElem?, hr.at_self, Option.getD_some]
  have hold : t.getD b 0 = d := by
    rw [Std.ExtTreeMap.getD_eq_getD_getElem?, hd, Option.getD_some]
  have helse (x : BlockId) (hx : x ≠ b) : t'.getD x 0 = t.getD x 0 := by
    rw [Std.ExtTreeMap.getD_eq_getD_getElem?, hr.elsewhere x hx,
      ← Std.ExtTreeMap.getD_eq_getD_getElem?]
  refine List.sum_lt_sum _ _ (fun x _ => ?_) ⟨b, hr.mem, ?_⟩
  · by_cases hx : x = b
    · subst hx
      rw [hself, hold]
      exact hlt.le
    · rw [helse x hx]
  · rw [hself, hold]
    exact hlt

/-- The weight of a tree is bounded, which bounds the sweeps. -/
theorem weight_le (order : List BlockId) (t : Tree) :
    weight order t ≤ order.length * order.length := by
  have hle :=
    List.sum_le_card_nsmul (order.map fun b =>
      order.idxOf (t.getD b 0)) order.length
    fun n hn => by
      obtain ⟨b, hb, rfl⟩ := List.mem_map.mp hn
      exact List.idxOf_le_length
  simpa [weight] using hle

/-- One sweep from some place on: it ends everything swept; a sweep without a
change leaves the tree, in which every block passed then has the parent that was
computed; and in a tree that holds every block a sweep with a change lowers the
weight. -/
theorem sweep_spec (hf : f.PredsExact) (hin : InOrder f order)
    {before bs : List BlockId} (hsplit : order = before ++ bs)
    (hbefore : before ≠ []) (flag : Bool) (h : Swept f order before.length t) :
    ∃ t' changed, bs.foldlM (refine f order)
      (t, flag) = .ok (t', flag || changed)
      ∧ Sweep f order bs t t' changed ∧ Swept f order order.length t'
      ∧ (changed = false → t' = t ∧ ∀ b ∈ bs, ∃ m, Recomputed f order t b m t)
      ∧ ((∀ b ∈ order, b ∈ t) → (∀ b ∈ order, b ∈ t')
          ∧ (changed = true → weight order t' < weight order t)
          ∧ weight order t' ≤ weight order t) := by
  induction bs generalizing before t flag with
  | nil =>
      rw [List.append_nil] at hsplit
      refine ⟨t, false, by rw [Bool.or_false]; rfl, .done t, hsplit ▸ h,
        fun _ => ⟨rfl, by simp⟩, fun hall => ⟨hall, by simp, le_rfl⟩⟩
  | cons b bs ih =>
      have hnd : (before ++ b :: bs).Nodup := hsplit ▸ hin.distinct
      have hnot : b ∉ before := fun hmem =>
        (List.nodup_append.mp hnd).2.2 b hmem b List.mem_cons_self rfl
      have hidx : order.idxOf b = before.length := by
        rw [hsplit, List.idxOf_append_of_notMem hnot, List.idxOf_cons_self]
        omega
      have hb : b ∈ order := by rw [hsplit]; simp
      have hne : b ≠ f.entry := by
        refine Rooted.ne_entry hin ?_
        rw [hidx]
        exact List.length_pos_iff.mpr hbefore
      rw [← hidx] at h
      obtain ⟨m, t₁, c₁, hrefine, hrefines, hr, hsame, hmoved⟩ :=
        refine_spec hf hin hb hne h flag
      have h₁ : Swept f order (before ++ [b]).length t₁ := by
        rw [List.length_append, List.length_singleton, ← hidx]
        exact hr.swept hin h
      obtain ⟨t₂, c₂, hfold, hsweep, h₂, hstill, hweight⟩ :=
        ih (by rw [hsplit]; simp) (by simp) (flag || c₁) h₁
      refine ⟨t₂, c₁ || c₂, ?_, .block hrefines hsweep, h₂,
        fun hc => ?_, fun hall => ?_⟩
      · rw [List.foldlM_cons, hrefine, ok_bind, hfold, Bool.or_assoc]
      · obtain ⟨hc₁, hc₂⟩ := Bool.or_eq_false_iff.mp hc
        have ht₁ := hsame hc₁
        subst ht₁
        obtain ⟨ht₂, hrest⟩ := hstill hc₂
        refine ⟨ht₂, fun x hx => ?_⟩
        rcases List.mem_cons.mp hx with rfl | hx
        · exact ⟨m, hr⟩
        · exact hrest x hx
      · have hone : (c₁ = true → weight order t₁ < weight order t)
            ∧ weight order t₁ ≤ weight order t := by
          cases hc₁ : c₁ with
          | false => exact ⟨by simp, by rw [hsame hc₁]⟩
          | true =>
              have hlt := weight_lt h hr (hall b hb) (hmoved hc₁).1
              exact ⟨fun _ => hlt, hlt.le⟩
        obtain ⟨hall₂, hlt₂, hle₂⟩ :=
          hweight fun x hx => hr.mem_of_mem (hall x hx)
        refine ⟨hall₂, fun hc => ?_, hle₂.trans hone.2⟩
        rcases Bool.or_eq_true_iff.mp hc with hc₁ | hc₂
        · exact hle₂.trans_lt (hone.1 hc₁)
        · exact (hlt₂ hc₂).trans_le hone.2

/-- A tree that no sweep changes: it holds every block, and every parent is the
nearest common ancestor of the predecessors. -/
structure Stable (f : Func) (order : List BlockId) (t : Tree) :
    Prop extends Growing f order t where
  all : ∀ b ∈ order, b ∈ t
  fixed : ∀ b ∈ order, b ≠ f.entry → ∃ m, Recomputed f order t b m t

/-- One sweep over the blocks behind the entry. -/
theorem whole_sweep_spec (hf : f.PredsExact) (hin : InOrder f order)
    (h : Swept f order 1 t) :
    ∃ t' changed, order.tail.foldlM (refine f order)
      (t, false) = .ok (t', changed)
      ∧ Sweep f order order.tail t t' changed ∧ Swept f order 1 t'
      ∧ (∀ b ∈ order, b ∈ t')
      ∧ (changed = false → Stable f order t')
      ∧ ((∀ b ∈ order, b ∈ t) → changed = true →
        weight order t' < weight order t) := by
  obtain ⟨rest, hrest⟩ : ∃ rest, order = f.entry :: rest :=
    List.head?_eq_some_iff.mp hin.head
  have htail : order.tail = rest := by rw [hrest, List.tail_cons]
  have hsplit : order = [f.entry] ++ rest := hrest
  obtain ⟨t', changed, hfold, hsweep, hend, hstill, hweight⟩ :=
    sweep_spec hf hin hsplit (by simp) false h
  rw [Bool.false_or] at hfold
  have hall : ∀ b ∈ order, b ∈ t' :=
    fun b hb => hend.early b hb (List.idxOf_lt_length_of_mem hb)
  refine ⟨t', changed, htail ▸ hfold, htail ▸ hsweep, hend.restart hin,
    hall, fun hc => ?_, fun hbefore => (hweight hbefore).2.1⟩
  obtain ⟨rfl, hfixed⟩ := hstill hc
  refine ⟨hend.toGrowing, hall, fun b hb hne => hfixed b ?_⟩
  rw [hrest] at hb
  exact (List.mem_cons.mp hb).resolve_left hne

/-- In a tree that holds every block the sweeps end by themselves. -/
theorem sweeps_full_spec (hf : f.PredsExact)
    (hin : InOrder f order) {fuel : Nat} (h : Swept f order 1 t)
    (hall : ∀ b ∈ order, b ∈ t) (henough : weight order t < fuel) :
    ∃ t', sweeps f order fuel t = .ok t' ∧ Settles f order t t'
        ∧ Stable f order t' := by
  induction fuel generalizing t with
  | zero => omega
  | succ fuel ih =>
      obtain ⟨t₁, changed, hfold, hsweep, h₁, hall₁, hstable, hlt⟩ :=
        whole_sweep_spec hf hin h
      cases changed with
      | false =>
          refine ⟨t₁, ?_, .still hsweep, hstable rfl⟩
          rw [sweeps, hfold, ok_bind]
          rfl
      | true =>
          obtain ⟨t', hrun, hsettles, hst⟩ :=
            ih h₁ hall₁ (by have := hlt hall rfl; omega)
          refine ⟨t', ?_, .again hsweep hsettles, hst⟩
          rw [sweeps, hfold, ok_bind]
          exact hrun

/-- From the entry alone the sweeps end by themselves in a stable tree. -/
theorem sweeps_spec (hf : f.PredsExact) (hin : InOrder f order) :
    ∃ t, sweeps f order (order.length * order.length + 2)
        ((∅ : Tree).insert f.entry f.entry)
        = .ok t ∧ Settles f order ((∅ : Tree).insert f.entry f.entry) t
        ∧ Stable f order t := by
  obtain ⟨t₁, changed, hfold, hsweep, h₁, hall₁, hstable, -⟩ :=
    whole_sweep_spec hf hin (swept_start hin)
  cases changed with
  | false =>
      refine ⟨t₁, ?_, .still hsweep, hstable rfl⟩
      rw [sweeps, hfold, ok_bind]
      rfl
  | true =>
      have hle := weight_le order t₁
      obtain ⟨t', hrun, hsettles, hst⟩ := sweeps_full_spec hf hin h₁ hall₁
        (by omega : weight order t₁ < order.length * order.length + 1)
      refine ⟨t', ?_, .again hsweep hsettles, hst⟩
      rw [sweeps, hfold, ok_bind]
      exact hrun

end Dominance.Tree

end MirBackend
