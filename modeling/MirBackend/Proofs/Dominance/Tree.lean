/-
The dominator tree is the true one.

In a stable tree climbing and dominance are the same. What dominates a block is
above it in every tree on the way (`Growing.covers`); what is above a block in
a stable tree is above all its predecessors or the block itself, and so every
walk to the block has been there (`Stable.mem_trail`).

The queries ask the tree without its root. Parents stand earlier in the order,
so a climb from a block takes no more steps than the block has places before
it, and the tree holds as many blocks as the order has behind the entry.
-/
import Mathlib
import MirBackend.Sample
import MirBackend.Proofs.Dominance.Sweeps

namespace MirBackend

/-- The lists of a well-formed function are exact. -/
theorem Func.WellFormed.predsExact {f : Func}
    (h : f.WellFormed) : f.PredsExact :=
  ⟨h.full, fun _ _ hb _ => h.mem_preds_iff hb⟩

namespace Dominance.Tree

variable {f : Func} {order : List BlockId} {t : Tree} {a b d : BlockId}

-- ================================================================ exactness

/-- A walk to a block has been at everything above the block. -/
theorem Stable.mem_trail (h : Stable f order t) (hin : InOrder f order)
    {trail : List BlockId} (hwalk : f.Walk b trail)
    (hc : Climbs t b a) : a ∈ trail := by
  induction hwalk with
  | start => exact List.mem_singleton.mpr (h.climbs_entry hc)
  | @step p b trail hwalk hedge hhere ih =>
      by_cases hab : a = b
      · exact hab ▸ List.mem_cons_self
      have hp : f.Reachable p := ⟨trail, hwalk⟩
      have hb : b ∈ order := (hin.mem_iff b).mpr (hp.step hedge hhere)
      have hne : b ≠ f.entry := by
        rintro rfl
        exact hab (h.climbs_entry hc)
      obtain ⟨m, hm⟩ := h.fixed b hb hne
      have hpm := hm.above p (h.all p ((hin.mem_iff p).mpr hp)) hedge
      exact List.mem_cons_of_mem _ (ih (hpm.trans (hc.of_ne hab hm.at_self)))

/-- In a stable tree climbing is dominance. -/
theorem Stable.climbs_iff (h : Stable f order t) (hin : InOrder f order)
    (hb : f.Reachable b) : Climbs t b a ↔ f.Dominates a b :=
  ⟨fun hc _ hwalk => h.mem_trail hin hwalk hc,
    h.covers b (h.all b ((hin.mem_iff b).mpr hb)) a⟩

-- ================================================================== queries

/-- What the tree without its root answers. -/
theorem getElem?_erase_entry (t : Tree) (b : BlockId) :
    (t.erase f.entry)[b]? = if b = f.entry then none else t[b]? := by
  rw [Std.ExtTreeMap.getElem?_erase]
  by_cases hb : b = f.entry
  · rw [if_pos hb, if_pos (by simpa using hb.symm)]
  · rw [if_neg hb, if_neg (by simpa using fun h => hb h.symm)]

/-- With steps enough, looking for a block above another finds it exactly if it
is there. -/
theorem climbsTo_iff (h : Rooted f order t) {fuel : Nat} (hb : b ∈ t)
    (henough : order.idxOf b < fuel) :
    climbsTo (t.erase f.entry) a fuel b = true ↔ Climbs t b a := by
  induction fuel generalizing b with
  | zero => omega
  | succ fuel ih =>
      rw [climbsTo]
      by_cases hab : a = b
      · rw [if_pos hab]
        exact ⟨fun _ => hab ▸ .refl t a, fun _ => rfl⟩
      rw [if_neg hab, getElem?_erase_entry]
      by_cases hentry : b = f.entry
      · subst hentry
        rw [if_pos rfl]
        exact ⟨fun hfalse => absurd hfalse Bool.false_ne_true,
          fun hc => absurd (h.climbs_entry hc) hab⟩
      · obtain ⟨d, hd⟩ := mem_iff_exists.mp hb
        have hlt := h.descends b d hd hentry
        rw [if_neg hentry, hd]
        dsimp only
        rw [ih (h.parent b d hd).2 (by omega)]
        exact ⟨fun hc => hc.head hd, fun hc => hc.of_ne hab hd⟩

/-- The tree without its root holds every block behind the entry. -/
theorem Stable.length_le_size (h : Stable f order t) (hin : InOrder f order) :
    order.length ≤ (t.erase f.entry).size + 1 := by
  obtain ⟨rest, rfl⟩ : ∃ rest, order = f.entry :: rest :=
    List.head?_eq_some_iff.mp hin.head
  have hnd := List.nodup_cons.mp hin.distinct
  have hsub : rest ⊆ (t.erase f.entry).keys := by
    intro b hb
    have hne : b ≠ f.entry := fun heq => hnd.1 (heq ▸ hb)
    obtain ⟨d, hd⟩ := mem_iff_exists.mp (h.all b (List.mem_cons_of_mem _ hb))
    rw [Std.ExtTreeMap.mem_keys]
    refine mem_of_getElem? (d := d) ?_
    rw [getElem?_erase_entry, if_neg hne, hd]
  have hle := (hnd.2.subperm hsub).length_le
  rw [Std.ExtTreeMap.length_keys] at hle
  rw [List.length_cons]
  omega

/-- The query on the finished tree is dominance. -/
theorem Stable.dominates_iff (h : Stable f order t) (hin : InOrder f order)
    (hb : f.Reachable b) :
    dominates (t.erase f.entry) a b = true ↔ f.Dominates a b := by
  have hmem := (hin.mem_iff b).mpr hb
  have hlt := List.idxOf_lt_length_of_mem hmem
  have hle := h.length_le_size hin
  rw [dominates, climbsTo_iff h.toRooted (h.all b hmem) (by omega),
    h.climbs_iff hin hb]

-- ================================================================== result

/-- The dominator tree of a function, by what its queries mean on the paths. -/
structure Exact (f : Func) (t : Tree) : Prop where
  /-- The query is dominance: every path from the entry to `b` passes through
  `a`. -/
  dominates_iff : ∀ a b, f.Reachable b →
    (t.dominates a b = true ↔ f.Dominates a b)
  entry : t[f.entry]? = none
  unreachable : ∀ b, ¬ f.Reachable b → t[b]? = none
  /-- Every other block has a strict dominator that its other strict dominators
  dominate. -/
  parent : ∀ b, f.Reachable b → b ≠ f.entry →
    ∃ d, t[b]? = some d ∧ d ≠ b ∧ f.Dominates d b ∧ ∀ a, f.Dominates a b →
      a ≠ b → f.Dominates a d

/-- A stable tree without its root is exact. -/
theorem Stable.exact (h : Stable f order t) (hin : InOrder f order) :
    Exact f (t.erase f.entry) := by
  refine ⟨fun a b hb => h.dominates_iff hin hb, ?_, fun b hb => ?_,
    fun b hb hne => ?_⟩
  · rw [getElem?_erase_entry, if_pos rfl]
  · rw [getElem?_erase_entry]
    split
    · rfl
    · by_contra hsome
      obtain ⟨d, hd⟩ := Option.ne_none_iff_exists'.mp hsome
      exact hb ((hin.mem_iff b).mp (h.parent b d hd).1)
  · obtain ⟨d, hd⟩ := mem_iff_exists.mp (h.all b ((hin.mem_iff b).mpr hb))
    have hlt := h.descends b d hd hne
    have hreach : f.Reachable d :=
      (hin.mem_iff d).mp (h.mem_order (h.parent b d hd).2)
    refine ⟨d, by rw [getElem?_erase_entry, if_neg hne, hd], ?_, ?_,
      fun a ha hab => ?_⟩
    · rintro rfl
      omega
    · exact (h.climbs_iff hin hb).mp (Climbs.head hd (.refl t d))
    · exact (h.climbs_iff hin hreach).mp
        (((h.climbs_iff hin hb).mpr ha).of_ne hab hd)

/-- A function whose entry is not there has no edge into its entry, and the
empty tree says so. -/
theorem exact_empty (habsent : f.hasBlock f.entry = false) : Exact f ∅ := by
  have hedge (s : BlockId) : ¬ f.HasEdge f.entry s := by
    rintro ⟨blk, hblk, -⟩
    rw [Func.hasBlock_of_block? hblk] at habsent
    cases habsent
  have honly (b : BlockId) (trail : List BlockId) (hwalk : f.Walk b trail) :
      b = f.entry ∧ trail = [f.entry] := by
    induction hwalk with
    | start => exact ⟨rfl, rfl⟩
    | step _ he _ ih => exact absurd (ih.1 ▸ he) (hedge _)
  refine ⟨fun a b hb => ?_, Std.ExtTreeMap.getElem?_empty,
    fun b _ => Std.ExtTreeMap.getElem?_empty, fun b hb hne => ?_⟩
  · obtain ⟨trail, hwalk⟩ := hb
    obtain ⟨rfl, -⟩ := honly b trail hwalk
    have hquery : dominates ∅ a f.entry = decide (a = f.entry) := by
      rw [dominates, climbsTo, Std.ExtTreeMap.getElem?_empty]
      split <;> simp_all
    rw [hquery, decide_eq_true_eq]
    constructor
    · rintro rfl trail hwalk
      exact hwalk.mem_self
    · exact dominates_entry
  · obtain ⟨trail, hwalk⟩ := hb
    exact absurd (honly b trail hwalk).1 hne

/-- Whatever the graph is like, if its predecessor lists are exact the loops
that compute the tree end by themselves, and the tree they leave is the
dominator tree. -/
theorem compute_exact (hf : f.PredsExact) :
    ∃ t, compute f = .ok t ∧ Computes f t ∧ Exact f t := by
  cases hhere : f.hasBlock f.entry with
  | false =>
      refine ⟨∅, ?_, .nothing hhere, exact_empty hhere⟩
      rw [compute, reversePostOrder, if_neg (by rw [hhere]; decide)]
      rfl
  | true =>
      obtain ⟨eb, heb⟩ := Func.block?_of_hasBlock hf.full hhere
      obtain ⟨order, horder, hends, hin⟩ := reversePostOrder_spec hf.full heb
      obtain ⟨t, hsweeps, hsettles, hstable⟩ := sweeps_spec hf hin
      refine ⟨t.erase f.entry, ?_, .tree heb hends hsettles, hstable.exact hin⟩
      obtain ⟨rest, rfl⟩ : ∃ rest, order = f.entry :: rest :=
        List.head?_eq_some_iff.mp hin.head
      rw [compute, horder, ok_bind]
      dsimp only
      rw [hsweeps, ok_bind]
      rfl

/-- Two blocks that jump to each other, each entered from outside, one of them
to itself, an edge back to the entry, and a block that is not reached. -/
def knot : Func := Sample.build "knot" [] do
  let c ← Sample.param
  let left ← Draft.block "left"
  let right ← Draft.block "right"
  let leave ← Draft.block "leave"
  let exit ← Draft.block "exit"
  let lost ← Draft.block "lost"
  Draft.branch (.value c) left right
  Draft.setBlock left
  Draft.branch (.value c) right leave
  Draft.setBlock right
  Draft.branch (.value c) left right
  Draft.setBlock leave
  Draft.branch (.value c) 0 exit
  Draft.setBlock exit
  Draft.ret []
  Draft.setBlock lost
  Draft.jump leave

/-- Two blocks in a loop that is entered at either: only the entry dominates
both. -/
theorem compute_exact_knot :
    knot.PredsExact
    ∧ (compute knot).toOption.map
    (·.toList) = some [(1, 0), (2, 0), (3, 1), (4, 3)]
    ∧ ∃ t, compute knot = .ok t ∧ Computes knot t ∧ Exact knot t := by
  have hvalid : knot.validate = .ok () := rfl
  have hf : knot.PredsExact := (Func.validate_eq_ok_iff.mp hvalid).predsExact
  exact ⟨hf, by decide, compute_exact hf⟩

end Dominance.Tree

end MirBackend
