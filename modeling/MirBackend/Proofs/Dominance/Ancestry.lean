/-
Climbing a tree of parents.

A tree maps blocks to parents; the entry is its own parent while the tree is
being made. `Climbs t b a` says that `a` is `b` or above it. Parents stand
earlier in the order than their children, so climbing ends, two blocks meet in
their nearest common ancestor, and of two blocks above a third one is above the
other.

Changing the parent of one block changes only the climbs that pass through
that block (`Climbs.redirect`).
-/
import Mathlib
import MirBackend.Dominance.Tree
import MirBackend.Proofs.Dominance.Order

namespace MirBackend.Dominance.Tree

variable {f : Func} {order : List BlockId} {t t' : Tree}
  {a b c d x y z : BlockId}

-- A tree is the table of its parents.
theorem mem_iff_exists : b ∈ t ↔ ∃ d, t[b]? = some d := by
  rw [Std.ExtTreeMap.mem_iff_isSome_getElem?, Option.isSome_iff_exists]

theorem mem_of_getElem? (h : t[b]? = some d) : b ∈ t :=
  mem_iff_exists.mpr ⟨d, h⟩

-- ================================================================ climbing

/-- Climbing from `b` comes to `a`. -/
def Climbs (t : Tree) : BlockId → BlockId → Prop :=
  Relation.ReflTransGen fun b d => t[b]? = some d

namespace Climbs

-- Climbing is reflexive and transitive, and a step at the foot is a step.
theorem refl (t : Tree) (b : BlockId) : Climbs t b b :=
  Relation.ReflTransGen.refl

theorem head (h : t[b]? = some d) (hd : Climbs t d a) : Climbs t b a :=
  Relation.ReflTransGen.head h hd

theorem trans (h : Climbs t a b) (h' : Climbs t b c) : Climbs t a c :=
  Relation.ReflTransGen.trans h h'

/-- What is above a block is the block itself or above its parent. -/
theorem cases (h : Climbs t b a) : a = b ∨ ∃ d, t[b]? = some d
    ∧ Climbs t d a := by
  rcases Relation.ReflTransGen.cases_head h with rfl | ⟨d, hd, hrest⟩
  · exact Or.inl rfl
  · exact Or.inr ⟨d, hd, hrest⟩

/-- What is above a block but not the block itself is above its parent. -/
theorem of_ne (h : Climbs t b a) (hne : a ≠ b) (hd : t[b]? = some d) :
    Climbs t d a := by
  obtain ⟨d', hd', hrest⟩ := h.cases.resolve_left hne
  rw [hd, Option.some.injEq] at hd'
  exact hd' ▸ hrest

/-- Of two blocks above a third, one is above the other. -/
theorem linear (h : Climbs t x y) (h' : Climbs t x z) :
    Climbs t y z ∨ Climbs t z y := by
  refine Relation.ReflTransGen.total_of_right_unique
    (fun b d e hd he => ?_) h h'
  rw [hd, Option.some.injEq] at he
  exact he

/-- Where two trees differ in the parent of `b` only, a climb is kept or passes
through `b`. -/
theorem redirect (hagree : ∀ x, x ≠ b → t'[x]? = t[x]?) (h : Climbs t y z) :
    Climbs t' y z ∨ (Climbs t y b ∧ Climbs t' y b ∧ Climbs t b z) := by
  induction h using Relation.ReflTransGen.head_induction_on with
  | refl => exact Or.inl (.refl t' z)
  | @head y d hyd hdz ih =>
      by_cases hyb : y = b
      · subst hyb
        exact Or.inr ⟨.refl t y, .refl t' y, .head hyd hdz⟩
      · have hyd' : t'[y]? = some d := (hagree y hyb).trans hyd
        rcases ih with hkept | ⟨hdb, hdb', hbz⟩
        · exact Or.inl (hkept.head hyd')
        · exact Or.inr ⟨hdb.head hyd, hdb'.head hyd', hbz⟩

end Climbs

-- =================================================================== shape

/-- A tree in the making: the entry is its own parent, and every other parent is
in the tree and stands earlier in the order. -/
structure Rooted (f : Func) (order : List BlockId) (t : Tree) : Prop where
  root : t[f.entry]? = some f.entry
  parent : ∀ b d, t[b]? = some d → b ∈ order ∧ d ∈ t
  descends : ∀ b d, t[b]? = some d → b ≠ f.entry → order.idxOf d < order.idxOf b

namespace Rooted

/-- Whatever is in the tree is in the order. -/
theorem mem_order (h : Rooted f order t) (hb : b ∈ t) : b ∈ order := by
  obtain ⟨d, hd⟩ := mem_iff_exists.mp hb
  exact (h.parent b d hd).1

/-- Climbing stays in the tree. -/
theorem climbs_mem (h : Rooted f order t) (hb : b ∈ t)
    (hc : Climbs t b a) : a ∈ t := by
  induction hc with
  | refl => exact hb
  | tail _ hd _ => exact (h.parent _ _ hd).2

/-- Nothing is above the entry. -/
theorem climbs_entry (h : Rooted f order t)
    (hc : Climbs t f.entry a) : a = f.entry := by
  induction hc with
  | refl => rfl
  | tail _ hd ih =>
      rw [ih, h.root, Option.some.injEq] at hd
      exact hd.symm

/-- A parent does not come later in the order. -/
theorem parent_le (h : Rooted f order t) (hd : t[b]? = some d) :
    order.idxOf d ≤ order.idxOf b := by
  by_cases hb : b = f.entry
  · subst hb
    rw [h.root, Option.some.injEq] at hd
    rw [hd]
  · exact (h.descends b d hd hb).le

/-- Climbing goes forward in the order never. -/
theorem climbs_le (h : Rooted f order t) (hc : Climbs t b a) :
    order.idxOf a ≤ order.idxOf b := by
  induction hc with
  | refl => exact le_rfl
  | tail _ hd ih => exact (h.parent_le hd).trans ih

/-- Climbing leads to earlier blocks, so it ends. -/
theorem climbs_lt (h : Rooted f order t) (hc : Climbs t b a) (hne : a ≠ b) :
    order.idxOf a < order.idxOf b := by
  obtain ⟨d, hd, hrest⟩ := hc.cases.resolve_left hne
  have hb : b ≠ f.entry := by
    rintro rfl
    exact hne (h.climbs_entry hc)
  exact (h.climbs_le hrest).trans_lt (h.descends b d hd hb)

/-- A block that does not stand first is not the entry. -/
theorem ne_entry (hin : InOrder f order)
    (hb : 0 < order.idxOf b) : b ≠ f.entry := by
  rintro rfl
  obtain ⟨rest, rfl⟩ : ∃ rest, order = f.entry :: rest :=
    List.head?_eq_some_iff.mp hin.head
  rw [List.idxOf_cons_self] at hb
  omega

/-- A block other than the entry does not stand first. -/
theorem idxOf_pos (hin : InOrder f order) (hb : b ≠ f.entry) :
    0 < order.idxOf b := by
  obtain ⟨rest, rfl⟩ : ∃ rest, order = f.entry :: rest :=
    List.head?_eq_some_iff.mp hin.head
  rw [List.idxOf_cons_ne rest hb.symm]
  omega

end Rooted

-- ================================================================= meeting

/-- Climbing from two blocks, always from the later one, until they meet. -/
inductive Meets (order : List BlockId) (t : Tree) : BlockId → BlockId →
    BlockId → Prop where
  | here (a : BlockId) : Meets order t a a a
  | left {a b c : BlockId} (apart : a ≠ b)
      (later : order.idxOf b < order.idxOf a)
      (rest : Meets order t (t.getD a 0) b c) : Meets order t a b c
  | right {a b c : BlockId} (apart : a ≠ b)
      (later : ¬ order.idxOf b < order.idxOf a)
      (rest : Meets order t a (t.getD b 0) c) : Meets order t a b c

/-- The nearest block above all of some blocks. -/
structure Nearest (t : Tree) (ps : List BlockId) (m : BlockId) : Prop where
  above : ∀ p ∈ ps, Climbs t p m
  least : ∀ e, (∀ p ∈ ps, Climbs t p e) → Climbs t m e

/-- With steps enough, two blocks of the tree meet in their nearest common
ancestor. -/
theorem meet_spec (h : Rooted f order t) (hin : InOrder f order)
    {fuel : Nat} (ha : a ∈ t) (hb : b ∈ t)
    (henough : order.idxOf a + order.idxOf b < fuel) :
    Meets order t a b (meet order t fuel a b) ∧ Nearest t [a, b]
      (meet order t fuel a b) := by
  induction fuel generalizing a b with
  | zero => omega
  | succ fuel ih =>
      rw [meet]
      by_cases hab : a = b
      · subst hab
        rw [if_pos rfl]
        exact ⟨.here a, by simpa using Climbs.refl t a,
          fun e he => he a List.mem_cons_self⟩
      · rw [if_neg hab]
        by_cases hlater : order.idxOf b < order.idxOf a
        · -- no common ancestor is `a` itself, since `b` stands earlier
          obtain ⟨d, hd⟩ := mem_iff_exists.mp ha
          have hlt := h.descends a d hd (Rooted.ne_entry hin (by omega))
          have hgetD : t.getD a 0 = d := by
            rw [Std.ExtTreeMap.getD_eq_getD_getElem?, hd, Option.getD_some]
          obtain ⟨hmeets, hnear⟩ :=
            ih (a := d) (h.parent a d hd).2 hb (by omega)
          rw [if_pos hlater, hgetD]
          refine ⟨.left hab hlater (hgetD ▸ hmeets), ?_, fun e he => ?_⟩
          · intro p hp
            rcases List.mem_pair.mp hp with rfl | rfl
            · exact (hnear.above d List.mem_cons_self).head hd
            · exact hnear.above p (by simp)
          · have hea : e ≠ a := by
              rintro rfl
              have := h.climbs_le (he b (by simp))
              omega
            refine hnear.least e fun p hp => ?_
            rcases List.mem_pair.mp hp with rfl | rfl
            · exact (he a List.mem_cons_self).of_ne hea hd
            · exact he p (by simp)
        · have hlt' : order.idxOf a < order.idxOf b := by
            have hne : order.idxOf a ≠ order.idxOf b := fun heq =>
              hab ((List.idxOf_inj (h.mem_order ha)).mp heq)
            omega
          obtain ⟨d, hd⟩ := mem_iff_exists.mp hb
          have hlt := h.descends b d hd (Rooted.ne_entry hin (by omega))
          have hgetD : t.getD b 0 = d := by
            rw [Std.ExtTreeMap.getD_eq_getD_getElem?, hd, Option.getD_some]
          obtain ⟨hmeets, hnear⟩ :=
            ih (b := d) ha (h.parent b d hd).2 (by omega)
          rw [if_neg hlater, hgetD]
          refine ⟨.right hab hlater (hgetD ▸ hmeets), ?_, fun e he => ?_⟩
          · intro p hp
            rcases List.mem_pair.mp hp with rfl | rfl
            · exact hnear.above p List.mem_cons_self
            · exact (hnear.above d (by simp)).head hd
          · have heb : e ≠ b := by
              rintro rfl
              have := h.climbs_le (he a List.mem_cons_self)
              omega
            refine hnear.least e fun p hp => ?_
            rcases List.mem_pair.mp hp with rfl | rfl
            · exact he p List.mem_cons_self
            · exact (he b (by simp)).of_ne heb hd

/-- Meeting the predecessors that are in the tree, one after the other. -/
inductive Gathers (order : List BlockId) (t : Tree) :
    Option BlockId → List BlockId → Option BlockId → Prop where
  | done (acc : Option BlockId) : Gathers order t acc [] acc
  | skip {p : BlockId} {ps : List BlockId}
      {acc r : Option BlockId} (absent : p ∉ t)
      (rest : Gathers order t acc ps r) : Gathers order t acc (p :: ps) r
  | first {p : BlockId} {ps : List BlockId} {r : Option BlockId} (here : p ∈ t)
      (rest : Gathers order t (some p) ps r) : Gathers order t none (p :: ps) r
  | meet {p a c : BlockId} {ps : List BlockId}
      {r : Option BlockId} (here : p ∈ t)
      (meets : Meets order t p a c) (rest : Gathers order t (some c) ps r) :
      Gathers order t (some a) (p :: ps) r

/-- The common ancestor of predecessors of which one is in the tree. -/
theorem commonAncestor_spec (h : Rooted f order t) (hin : InOrder f order)
    {ps : List BlockId} {q : BlockId} (hq : q ∈ ps) (hqt : q ∈ t) :
    ∃ m, commonAncestor order t ps = some m ∧ Gathers order t none ps (some m)
      ∧ Nearest t (ps.filter (· ∈ t)) m := by
  have hfilter (ps : List BlockId) : ps.filter t.contains = ps.filter (· ∈ t) :=
    List.filter_congr fun p _ => by
      rw [Bool.eq_iff_iff, decide_eq_true_eq]
      exact Std.ExtTreeMap.contains_iff_mem
  obtain ⟨step, hfold, hfirst, hstep⟩ :
      ∃ step : Option BlockId → BlockId → Option BlockId,
      commonAncestor order t ps = (ps.filter (· ∈ t)).foldl step none
      ∧ (∀ p, step none p = some p)
      ∧ ∀ a p, step (some a) p
      = some (meet order t (2 * order.length + 1) p a) :=
    ⟨_, congrArg (List.foldl _ none) (hfilter ps), fun _ => rfl, fun _ _ => rfl⟩
  have hpos {p : BlockId} (hp : p ∈ t) : order.idxOf p < order.length :=
    List.idxOf_lt_length_of_mem (h.mem_order hp)
  -- what was met so far is the nearest above the blocks passed
  have hmore : ∀ (ps qs : List BlockId) (a : BlockId), a ∈ t → Nearest t qs a →
      ∃ m, (ps.filter (· ∈ t)).foldl step (some a) = some m
        ∧ Gathers order t (some a) ps (some m)
        ∧ Nearest t (qs ++ ps.filter (· ∈ t)) m := by
    intro ps
    induction ps with
    | nil =>
        intro qs a _ hnear
        exact ⟨a, rfl, .done _, by simpa using hnear⟩
    | cons p ps ih =>
        intro qs a hat hnear
        by_cases hp : p ∈ t
        · obtain ⟨hmeets, hpa⟩ := meet_spec h hin hp hat
            (by have := hpos hp; have := hpos hat; omega :
              order.idxOf p + order.idxOf a < 2 * order.length + 1)
          obtain ⟨c, hc⟩ : ∃ c, c = meet order t (2 * order.length + 1) p a :=
            ⟨_, rfl⟩
          rw [← hc] at hmeets hpa
          have hct : c ∈ t := h.climbs_mem hp (hpa.above p List.mem_cons_self)
          have hnear' : Nearest t (qs ++ [p]) c := by
            refine ⟨fun r hr => ?_, fun e he => hpa.least e fun r hr => ?_⟩
            · rcases List.mem_append.mp hr with hr | hr
              · exact (hnear.above r hr).trans (hpa.above a (by simp))
              · rw [List.mem_singleton.mp hr]
                exact hpa.above p List.mem_cons_self
            · rcases List.mem_pair.mp hr with rfl | rfl
              · exact he r (by simp)
              · exact hnear.least e fun s hs => he s (List.mem_append_left _ hs)
          obtain ⟨m, hm, hgather, hlast⟩ := ih (qs ++ [p]) c hct hnear'
          refine ⟨m, ?_, .meet hp hmeets hgather, ?_⟩
          · rw [List.filter_cons_of_pos (by simpa using hp), List.foldl_cons,
              hstep, ← hc]
            exact hm
          · rw [List.filter_cons_of_pos (by simpa using hp)]
            simpa using hlast
        · obtain ⟨m, hm, hgather, hlast⟩ := ih qs a hat hnear
          rw [List.filter_cons_of_neg (by simpa using hp)]
          exact ⟨m, hm, .skip hp hgather, hlast⟩
  -- predecessors that are not in the tree yet are passed over until the first
  -- one that is
  have hall : ∀ ps : List BlockId, q ∈ ps →
      ∃ m, (ps.filter (· ∈ t)).foldl step none = some m
      ∧ Gathers order t none ps (some m) ∧ Nearest t (ps.filter (· ∈ t)) m := by
    intro ps
    induction ps with
    | nil => exact fun hq => absurd hq List.not_mem_nil
    | cons p ps ih =>
        intro hq
        by_cases hp : p ∈ t
        · obtain ⟨m, hm, hgather, hnear⟩ := hmore ps [p] p hp
            ⟨by simpa using Climbs.refl t p,
            fun e he => he p List.mem_cons_self⟩
          rw [List.filter_cons_of_pos (by simpa using hp)]
          refine ⟨m, ?_, .first hp hgather, by simpa using hnear⟩
          rw [List.foldl_cons, hfirst]
          exact hm
        · have hqp : q ≠ p := fun heq => hp (heq ▸ hqt)
          obtain ⟨m, hm, hgather, hnear⟩ :=
            ih ((List.mem_cons.mp hq).resolve_left hqp)
          rw [List.filter_cons_of_neg (by simpa using hp)]
          exact ⟨m, hm, .skip hp hgather, hnear⟩
  obtain ⟨m, hm, hgather, hnear⟩ := hall ps hq
  exact ⟨m, hfold.trans hm, hgather, hnear⟩

end MirBackend.Dominance.Tree
