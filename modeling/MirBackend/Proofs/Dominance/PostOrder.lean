/-
The walk lists blocks in reverse post-order.

Outside of cycles the order follows the edges: if `u` has an edge to `v` and
`v` does not lead back to `u`, then `u` is listed before `v`. The blocks on the
stack are a path, each leading to those further in. So when a block is done, a
successor of it either was done before or is still on the stack and leads to
the block. The other things that are asked of a reverse post-order are those
of `InOrder`, with reachability told by the search of the function itself.
-/
import Mathlib
import MirBackend.Proofs.Dominance.Order

namespace MirBackend

namespace Func

variable {f : Func} {a b c : BlockId}

/-- There is a path over edges between blocks that are there, perhaps without
any edge. -/
def Leads (f : Func) : BlockId → BlockId → Prop :=
  Relation.ReflTransGen fun a b => f.HasEdge a b ∧ f.hasBlock b = true

-- Leading is reflexive, and goes on with each edge.
theorem Leads.refl (f : Func) (a : BlockId) : f.Leads a a :=
  Relation.ReflTransGen.refl

theorem Leads.step (h : f.Leads a b) (hedge : f.HasEdge b c)
    (here : f.hasBlock c = true) : f.Leads a c :=
  Relation.ReflTransGen.tail h ⟨hedge, here⟩

/-- What is reachable is what the entry leads to. -/
theorem reachable_iff_leads : f.Reachable b ↔ f.Leads f.entry b := by
  constructor
  · exact Reachable.induct (.refl f _) fun p b _ hp hedge hhere =>
      hp.step hedge hhere
  · intro h
    induction h with
    | refl => exact .entry
    | tail _ hstep ih => exact ih.step hstep.1 hstep.2

end Func

namespace Dominance

variable {f : Func} {w w' : Walk} {order : List BlockId}

namespace Walk

/-- The blocks on the stack are a path, and behind every block that is done come
its successors, but for those that lead back to it. -/
structure Nested (f : Func) (w : Walk) : Prop where
  path : w.stack.Pairwise fun inner outer => f.Leads outer.1 inner.1
  settled : ∀ newer b older, w.done = newer ++ b :: older → ∀ s, f.HasEdge b s →
    f.hasBlock s = true → s ∈ older ∨ f.Leads s b

/-- A frame that is popped has all its successors behind it or on the stack. -/
theorem Nested.pop {b : BlockId}
    {rest : List (BlockId × List BlockId)} (h : Nested f w)
    (hunder : Underway f w) (hw : w.stack = (b, []) :: rest) :
    Nested f { w with stack := rest, done := b :: w.done } := by
  have hpath := h.path
  rw [hw, List.pairwise_cons] at hpath
  refine ⟨hpath.2, fun newer c older hsplit s hedge hhere => ?_⟩
  cases newer with
  | cons n newer =>
      rw [List.cons_append, List.cons.injEq] at hsplit
      exact h.settled newer c older hsplit.2 s hedge hhere
  | nil =>
      rw [List.nil_append, List.cons.injEq] at hsplit
      obtain ⟨rfl, rfl⟩ := hsplit
      have hmet : s ∈ w.line :=
        (hunder.looked b [] (hw ▸ List.mem_cons_self) s hedge
        hhere).resolve_left List.not_mem_nil
      rw [line, hw, List.mem_append, List.mem_reverse, List.map_cons,
        List.mem_cons] at hmet
      rcases hmet with (rfl | hmet) | hmet
      · exact Or.inr (.refl f s)
      · obtain ⟨fr, hfr, rfl⟩ := List.mem_map.mp hmet
        exact Or.inr (hpath.1 fr hfr)
      · exact Or.inl hmet

/-- A block that is stepped into is led to by all that is on the stack. -/
theorem Nested.push {b s : BlockId} {ss succs : List BlockId}
    {rest : List (BlockId × List BlockId)} {seen : BitSet} (h : Nested f w)
    (hw : w.stack = (b, s :: ss) :: rest) (hedge : f.HasEdge b s)
    (hhere : f.hasBlock s = true) :
    Nested f
      { w with stack := (s, succs) :: (b, ss) :: rest, seen := seen } := by
  have hpath := h.path
  rw [hw, List.pairwise_cons] at hpath
  refine ⟨?_, h.settled⟩
  refine List.pairwise_cons.mpr ⟨fun fr hfr => ?_, List.pairwise_cons.mpr hpath⟩
  rcases List.mem_cons.mp hfr with rfl | hfr
  · exact (Func.Leads.refl f b).step hedge hhere
  · exact (hpath.1 fr hfr).step hedge hhere

/-- To pass a successor over changes neither the path nor what is done. -/
theorem Nested.skip {b s : BlockId} {ss : List BlockId}
    {rest : List (BlockId × List BlockId)} (h : Nested f w)
    (hw : w.stack = (b, s :: ss) :: rest) :
    Nested f { w with stack := (b, ss) :: rest } := by
  have hpath := h.path
  rw [hw, List.pairwise_cons] at hpath
  exact ⟨List.pairwise_cons.mpr hpath, h.settled⟩

/-- A turn of the walk keeps it nested: what is seen under a block is finished
before that block is. -/
theorem Nested.turn (h : Nested f w) (hunder : Underway f w)
    (hmore : w.stack ≠ []) (hturn : w.turn f = .ok w') : Nested f w' := by
  rcases hw : w.stack with - | ⟨⟨b, - | ⟨s, ss⟩⟩, rest⟩
  · exact absurd hw hmore
  · rw [Walk.turn, hw] at hturn
    cases hturn
    exact h.pop hunder hw
  · rw [Walk.turn, hw] at hturn
    dsimp only at hturn
    split at hturn
    · next hcond =>
      rw [Bool.and_eq_true] at hcond
      obtain ⟨succs, -, hturn⟩ := bind_eq_ok.mp hturn
      cases hturn
      exact h.push hw (hunder.ahead b _ (hw ▸ List.mem_cons_self) s
        List.mem_cons_self) hcond.1
    · cases hturn
      exact h.skip hw

/-- When the walk ends, every block that is listed has its successors behind it,
but for those that lead back to it. -/
theorem Ends.settled (hfull : ∀ o ∈ f.blocks, o.isSome = true)
    (hends : Ends f w order) (hunder : Underway f w) (h : Nested f w) :
    ∀ newer b older, order = newer ++ b :: older → ∀ s, f.HasEdge b s →
      f.hasBlock s = true →
      s ∈ older ∨ f.Leads s b := by
  induction hends with
  | done => exact h.settled
  | turn more step _ ih =>
      obtain ⟨w₁, hturn, hunder₁, -⟩ := hunder.turn hfull more
      rw [step, Except.ok.injEq] at hturn
      subst hturn
      exact ih hunder₁ (h.turn hunder more step)

end Walk

/-- The walk starts nested, with nothing finished. -/
theorem startWalk_nested (eb : Block) : (startWalk f eb).Nested f := by
  refine ⟨List.pairwise_singleton _ _, fun newer b older hsplit => ?_⟩
  cases newer <;> cases hsplit

/-- Where no place is vacant and the entry is there, whatever the terminators:
the walk ends by itself, and it lists the blocks of `Func.reachable`, those the
entry leads to, each once, the entry first, every other block behind one with an
edge to it, and `u` before `v` if an edge leads from `u` to `v` and no path
back. -/
theorem reversePostOrder_exact (hfull : ∀ o ∈ f.blocks, o.isSome = true)
    (hentry : f.hasBlock f.entry = true) :
    ∃ eb order seen, f.block? f.entry = some eb ∧ reversePostOrder f = .ok order
      ∧ (startWalk f eb).Ends f order ∧ f.reachable = .ok seen
      ∧ order.Nodup
      ∧ (∀ b, b ∈ order ↔ seen.containsInt b = true)
      ∧ (∀ b, b ∈ order ↔ f.Leads f.entry b)
      ∧ order.head? = some f.entry
      ∧ (∀ b ∈ order, b ≠ f.entry → ∃ p ∈ order, f.HasEdge p b
        ∧ order.idxOf p < order.idxOf b)
      ∧ ∀ u ∈ order, ∀ v ∈ order, f.HasEdge u v → ¬ f.Leads v u →
          order.idxOf u < order.idxOf v := by
  obtain ⟨eb, heb⟩ := Func.block?_of_hasBlock hfull hentry
  obtain ⟨order, horder, hends, hin⟩ := reversePostOrder_spec hfull heb
  obtain ⟨seen, hseen, hmarked⟩ := Func.reachable_spec hfull hentry
  have hhere {b : BlockId} (hb : f.Reachable b) : f.hasBlock b = true := by
    rcases hb.cases with rfl | ⟨-, -, -, h⟩
    · exact hentry
    · exact h
  refine ⟨eb, order, seen, heb, horder, hends, hseen, hin.distinct, fun b => ?_,
    fun b => (hin.mem_iff b).trans Func.reachable_iff_leads,
    hin.head, hin.parent,
    fun u hu v hv hedge hback => ?_⟩
  · rw [hin.mem_iff]
    cases b with
    | ofNat k => exact (hmarked k).symm
    | negSucc k =>
        constructor
        · intro hb
          obtain ⟨i, hi, -⟩ := Func.hasBlock_iff.mp (hhere hb)
          cases hi
        · rintro ⟨⟩
  · obtain ⟨newer, older, hsplit⟩ := List.append_of_mem hu
    have hsettled := hends.settled hfull (startWalk_underway heb)
      (startWalk_nested eb) newer u older
      hsplit v hedge (hhere ((hin.mem_iff v).mp hv))
    have hbehind : v ∈ older := hsettled.resolve_right hback
    have hnd : (newer ++ u :: older).Nodup := hsplit ▸ hin.distinct
    have hnot : v ∉ newer := fun h =>
      (List.nodup_append.mp hnd).2.2 v h v (List.mem_cons_of_mem _ hbehind) rfl
    have hne : u ≠ v := fun h =>
      (List.nodup_cons.mp (List.nodup_append.mp hnd).2.1).1 (h ▸ hbehind)
    have hnotu : u ∉ newer := fun h =>
      (List.nodup_append.mp hnd).2.2 u h u List.mem_cons_self rfl
    rw [hsplit, List.idxOf_append_of_notMem hnotu,
      List.idxOf_append_of_notMem hnot,
      List.idxOf_cons_self, List.idxOf_cons_ne _ hne]
    omega

/-- A loop with two blocks, entered at both, with targets that are not there, a
way out of it to a block without a terminator, and a block that is not
reached. -/
def astray : Func :=
  { name := "astray"
    blocks :=
      [some { name := "entry", term := some (.branch (.value 0) 2 1) },
        some { name := "left", term := some (.branch (.value 0) 2 9) },
        some { name := "right", term := some (.branch (.value 0) 3 1) },
        some { name := "open" },
        some { name := "lost", term := some (.branch (.value 0) (-1) 0) }] }

/-- A function with a jump to nowhere and a block that nothing leads to. -/
theorem reversePostOrder_exact_astray :
    (∀ o ∈ astray.blocks, o.isSome = true) ∧ astray.hasBlock astray.entry = true
    ∧ reversePostOrder astray = .ok [0, 2, 1, 3]
    ∧ ∃ seen, astray.reachable = .ok seen
      ∧ (∀ b, b ∈ ([0, 2, 1, 3] : List BlockId) ↔ seen.containsInt b = true)
      ∧ ∀ b, b ∈ ([0, 2, 1, 3] : List BlockId)
      ↔ astray.Leads astray.entry b := by
  have hfull : ∀ o ∈ astray.blocks, o.isSome = true := by decide
  have hentry : astray.hasBlock astray.entry = true := by decide
  have horder : reversePostOrder astray = .ok [0, 2, 1, 3] := rfl
  obtain ⟨eb, order, seen, -, horder', -, hseen, -, hmem, hleads, -⟩ :=
    reversePostOrder_exact hfull hentry
  rw [horder, Except.ok.injEq] at horder'
  subst horder'
  exact ⟨hfull, hentry, horder, seen, hseen, hmem, hleads⟩

end Dominance

end MirBackend
