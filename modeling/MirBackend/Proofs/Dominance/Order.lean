/-
The order in which the depth-first walk lists blocks.

While the walk is under way, the blocks on the stack, outermost first, and
behind them the blocks done, the latest first, already stand in the order that
will come out: finishing a block moves it from the one part to the other and
leaves this `line` as it is, and stepping into a block puts it in behind the
block it was stepped into from. So every block but the entry always has a block
before it from which an edge leads to it, and that is what the dominator tree
needs of the order.

Every turn uses up a successor or a frame. A block not yet on the line is worth
three turns, since it has at most two successors; so the walk ends by itself
within the bound it is given (`Walk.Ends` tells it without the bound).
-/
import Mathlib
import MirBackend.Dominance.Order
import MirBackend.Proofs.Func.Paths

namespace MirBackend

/-- A block has at most two successors. -/
theorem Block.length_targets_le (b : Block) : b.targets.length ≤ 2 := by
  unfold Block.targets
  rcases b.term with - | t
  · exact Nat.zero_le _
  · cases t with
    | branch c t e | branchCmp op l r t e =>
        show (if t = e then [t] else [t, e]).length ≤ 2
        split <;> simp
    | _ => simp [targetsOf, Terminator.targets]

namespace Dominance

variable {f : Func} {w w' : Walk} {order : List BlockId}

/-- What is asked of an order of the blocks: it lists what is reachable, the
entry first, and every other block behind one from which an edge leads to it. -/
structure InOrder (f : Func) (order : List BlockId) : Prop where
  distinct : order.Nodup
  mem_iff : ∀ b, b ∈ order ↔ f.Reachable b
  head : order.head? = some f.entry
  parent : ∀ b ∈ order, b ≠ f.entry →
    ∃ p ∈ order, f.HasEdge p b ∧ order.idxOf p < order.idxOf b

namespace Walk

/-- The walk ends by itself and answers. -/
inductive Ends (f : Func) : Walk → List BlockId → Prop where
  | done {w : Walk} (empty : w.stack = []) : Ends f w w.done
  | turn {w w₁ : Walk} {order : List BlockId} (more : w.stack ≠ [])
      (step : w.turn f = .ok w₁)
      (rest : Ends f w₁ order) : Ends f w order

/-- The blocks met so far, in the order in which they will be listed. -/
def line (w : Walk) : List BlockId := (w.stack.map Prod.fst).reverse ++ w.done

/-- The walk on its way. -/
structure Underway (f : Func) (w : Walk) : Prop where
  distinct : w.line.Nodup
  seen : ∀ k : Nat, w.seen.contains k = true ↔ (k : BlockId) ∈ w.line
  reached : ∀ b ∈ w.line, f.hasBlock b = true ∧ f.Reachable b
  entry : w.line.head? = some f.entry
  parent : ∀ before b behind, w.line = before ++ b :: behind → b ≠ f.entry →
    ∃ p ∈ before, f.HasEdge p b
  /-- The successors still to be looked at are successors. -/
  ahead : ∀ b ss, (b, ss) ∈ w.stack → ∀ s ∈ ss, f.HasEdge b s
  /-- The others were met. -/
  looked : ∀ b ss, (b, ss) ∈ w.stack → ∀ s, f.HasEdge b s →
    f.hasBlock s = true →
    s ∈ ss ∨ s ∈ w.line
  closed : ∀ b ∈ w.done, ∀ s, f.HasEdge b s → f.hasBlock s = true → s ∈ w.line

/-- The turns that are left at most. -/
def left (f : Func) (w : Walk) : Nat :=
  3 * (f.blocks.length - w.line.length)
    + (w.stack.map fun fr => fr.2.length + 1).sum

/-- The line from the entry holds no block twice, so it is no longer than the
function. -/
theorem Underway.length_line_le (h : Underway f w) :
    w.line.length ≤ f.blocks.length := by
  have hnat : w.line = (w.line.map Int.toNat).map Int.ofNat := by
    rw [List.map_map]
    conv_lhs => rw [← List.map_id w.line]
    refine List.map_congr_left fun b hb => ?_
    obtain ⟨i, rfl, -⟩ := Func.hasBlock_iff.mp (h.reached b hb).1
    rfl
  have hnd : (w.line.map Int.toNat).Nodup := by
    have := h.distinct
    rw [hnat] at this
    exact List.Nodup.of_map _ this
  have hle := Func.length_le_blocks (f := f) hnd fun k hk => by
    obtain ⟨b, hb, rfl⟩ := List.mem_map.mp hk
    obtain ⟨i, rfl, hi⟩ := Func.hasBlock_iff.mp (h.reached b hb).1
    exact Func.hasBlock_iff.mpr ⟨i, rfl, hi⟩
  simpa using hle

/-- Membership in the set of blocks seen, for any block that is there. -/
theorem Underway.containsInt_iff (h : Underway f w) {s : BlockId}
    (hs : f.hasBlock s = true) : w.seen.containsInt s = true ↔ s ∈ w.line := by
  obtain ⟨i, rfl, -⟩ := Func.hasBlock_iff.mp hs
  exact h.seen i

/-- A frame without successors left is popped: the line stays. -/
theorem Underway.pop {b : BlockId} {rest : List (BlockId × List BlockId)}
    (h : Underway f w) (hw : w.stack = (b, []) :: rest) :
    Underway f { w with stack := rest, done := b :: w.done } := by
  have hline : line { w with stack := rest, done := b :: w.done } = w.line := by
    unfold line
    rw [hw]
    simp
  have hsub {c : BlockId} {ss : List BlockId} (hc : (c, ss) ∈ rest) :
      (c, ss) ∈ w.stack := by
    rw [hw]
    exact List.mem_cons_of_mem _ hc
  refine ⟨hline ▸ h.distinct, hline ▸ h.seen, hline ▸ h.reached,
    hline ▸ h.entry, hline ▸ h.parent,
    fun c ss hc => h.ahead c ss (hsub hc), fun c ss hc => ?_,
    fun c hc s hs hhere => ?_⟩
  · rw [hline]
    exact h.looked c ss (hsub hc)
  · rw [hline]
    rcases List.mem_cons.mp hc with rfl | hc
    · exact (h.looked c [] (hw ▸ List.mem_cons_self) s hs hhere).resolve_left
        List.not_mem_nil
    · exact h.closed c hc s hs hhere

/-- A successor that is not there, or was met before, is passed over. -/
theorem Underway.skip {b s : BlockId} {ss : List BlockId}
    {rest : List (BlockId × List BlockId)} (h : Underway f w)
    (hw : w.stack = (b, s :: ss) :: rest)
    (hs : f.hasBlock s = true → s ∈ w.line) :
    Underway f { w with stack := (b, ss) :: rest } := by
  have hline : line { w with stack := (b, ss) :: rest } = w.line := by
    unfold line
    rw [hw]
    rfl
  have hhead : (b, s :: ss) ∈ w.stack := hw ▸ List.mem_cons_self
  have hrest {c : BlockId} {us : List BlockId} (hc : (c, us) ∈ rest) :
      (c, us) ∈ w.stack := by
    rw [hw]
    exact List.mem_cons_of_mem _ hc
  refine ⟨hline ▸ h.distinct, hline ▸ h.seen, hline ▸ h.reached,
    hline ▸ h.entry, hline ▸ h.parent,
    fun c us hc u hu => ?_, fun c us hc u hu hhere => ?_,
    fun c hc => hline ▸ h.closed c hc⟩
  · rcases List.mem_cons.mp hc with heq | hc
    · cases heq
      exact h.ahead b _ hhead u (List.mem_cons_of_mem _ hu)
    · exact h.ahead c us (hrest hc) u hu
  · rw [hline]
    rcases List.mem_cons.mp hc with heq | hc
    · cases heq
      rcases h.looked b _ hhead u hu hhere with hmem | hmem
      · rcases List.mem_cons.mp hmem with rfl | hmem
        · exact Or.inr (hs hhere)
        · exact Or.inl hmem
      · exact Or.inr hmem
    · exact h.looked c us (hrest hc) u hu hhere

/-- A block met for the first time goes on the stack, and on the line behind the
block it was stepped into from. -/
theorem Underway.push {b s : BlockId} {ss : List BlockId}
    {rest : List (BlockId × List BlockId)} {sb : Block} (h : Underway f w)
    (hw : w.stack = (b, s :: ss) :: rest) (hsb : f.block? s = some sb)
    (hnew : s ∉ w.line) :
    Underway f
      { w with stack := (s, sb.targets) :: (b, ss) :: rest,
               seen := w.seen.insert s.toNat }
      ∧ (line { w with stack := (s, sb.targets) :: (b, ss) :: rest,
                       seen := w.seen.insert s.toNat }).length
                           = w.line.length + 1 := by
  obtain ⟨outer, houter⟩ : ∃ outer, outer = (rest.map Prod.fst).reverse
      ++ [b] := ⟨_, rfl⟩
  have hold : w.line = outer ++ w.done := by
    unfold line
    rw [hw, houter]
    simp
  have hline : line { w with stack := (s, sb.targets) :: (b, ss) :: rest,
                             seen := w.seen.insert s.toNat }
                               = outer ++ s :: w.done := by
    unfold line
    rw [houter]
    simp
  have hmem (c : BlockId) : c ∈ outer ++ s :: w.done ↔ c = s ∨ c ∈ w.line := by
    rw [hold]
    simp only [List.mem_append, List.mem_cons]
    tauto
  have hhead : (b, s :: ss) ∈ w.stack := hw ▸ List.mem_cons_self
  have hedge : f.HasEdge b s := h.ahead b _ hhead s List.mem_cons_self
  have hhere : f.hasBlock s = true := Func.hasBlock_of_block? hsb
  have hb : b ∈ w.line := by
    rw [hold, houter]
    simp
  have hframe {c : BlockId} {us : List BlockId}
      (hc : (c, us) ∈ (b, ss) :: rest) :
      ∃ vs, (c, vs) ∈ w.stack ∧ us ⊆ vs ∧ ∀ v ∈ vs, v ∈ us ∨ v = s := by
    rcases List.mem_cons.mp hc with heq | hc
    · cases heq
      refine ⟨_, hhead, List.subset_cons_self _ _, fun v hv => ?_⟩
      rcases List.mem_cons.mp hv with rfl | hv
      · exact Or.inr rfl
      · exact Or.inl hv
    · exact ⟨us, hw ▸ List.mem_cons_of_mem _ hc, fun _ hv => hv,
        fun _ hv => Or.inl hv⟩
  refine ⟨⟨?_, fun k => ?_, fun c hc => ?_, ?_, ?_, fun c us hc u hu => ?_,
    fun c us hc u hu huhere => ?_, fun c hc u hu huhere => ?_⟩, ?_⟩
  · have hperm : (outer ++ s :: w.done).Perm (s :: w.line) := by
      rw [hold]
      exact List.perm_middle
    rw [hline, hperm.nodup_iff]
    exact List.nodup_cons.mpr ⟨hnew, h.distinct⟩
  · obtain ⟨i, rfl, -⟩ := Func.hasBlock_iff.mp hhere
    rw [hline, hmem, BitSet.contains_insert, Bool.or_eq_true, h.seen k,
      decide_eq_true_eq, Int.toNat_natCast, Nat.cast_inj, or_comm, eq_comm]
  · rw [hline, hmem] at hc
    rcases hc with rfl | hc
    · exact ⟨hhere, (h.reached b hb).2.step hedge hhere⟩
    · exact h.reached c hc
  · rw [hline]
    have hentry := h.entry
    rw [hold] at hentry
    have hne : outer ≠ [] := by rw [houter]; simp
    rw [List.head?_append_of_ne_nil _ hne] at hentry ⊢
    exact hentry
  · intro before c behind hsplit hc
    rw [hline] at hsplit
    rcases List.append_eq_append_iff.mp hsplit with ⟨as, hbefore, hbehind⟩
      | ⟨as, hout, hbehind⟩
    · cases as with
      | nil =>
          -- the new block itself
          rw [List.nil_append, List.cons.injEq] at hbehind
          refine ⟨b, ?_, hbehind.1 ▸ hedge⟩
          rw [hbefore, List.append_nil, houter]
          simp
      | cons a as =>
          -- a block that is done
          rw [List.cons_append, List.cons.injEq] at hbehind
          obtain ⟨p, hp, hpc⟩ := h.parent (outer ++ as) c behind
            (by rw [hold, hbehind.2, List.append_assoc]) hc
          refine ⟨p, ?_, hpc⟩
          rw [hbefore]
          simp only [List.mem_append, List.mem_cons] at hp ⊢
          tauto
    · -- a block on the stack
      cases as with
      | nil =>
          rw [List.nil_append, List.cons.injEq] at hbehind
          refine ⟨b, ?_, hbehind.1 ▸ hedge⟩
          rw [List.append_nil] at hout
          rw [← hout, houter]
          simp
      | cons a as =>
          rw [List.cons_append, List.cons.injEq] at hbehind
          obtain ⟨rfl, -⟩ := hbehind
          obtain ⟨p, hp, hpc⟩ := h.parent before c (as ++ w.done)
            (by rw [hold, hout]; simp) hc
          exact ⟨p, hp, hpc⟩
  · rcases List.mem_cons.mp hc with heq | hc
    · cases heq
      exact ⟨sb, hsb, hu⟩
    · obtain ⟨vs, hvs, hsub, -⟩ := hframe hc
      exact h.ahead c vs hvs u (hsub hu)
  · rw [hline, hmem]
    rcases List.mem_cons.mp hc with heq | hc
    · cases heq
      obtain ⟨sb', hsb', hus⟩ := hu
      rw [hsb, Option.some.injEq] at hsb'
      exact Or.inl (hsb' ▸ hus)
    · obtain ⟨vs, hvs, -, hback⟩ := hframe hc
      rcases h.looked c vs hvs u hu huhere with hmem' | hmem'
      · rcases hback u hmem' with hin | rfl
        · exact Or.inl hin
        · exact Or.inr (Or.inl rfl)
      · exact Or.inr (Or.inr hmem')
  · rw [hline, hmem]
    exact Or.inr (h.closed c hc u hu huhere)
  · rw [hline, hold]
    simp only [List.length_append, List.length_cons]
    omega

/-- A turn is always possible, keeps the walk on its way and uses up a turn. -/
theorem Underway.turn (hfull : ∀ o ∈ f.blocks, o.isSome = true)
    (h : Underway f w) (hmore : w.stack ≠ []) :
    ∃ w', w.turn f = .ok w' ∧ Underway f w' ∧ left f w' < left f w := by
  rcases hw : w.stack with - | ⟨⟨b, - | ⟨s, ss⟩⟩, rest⟩
  · exact absurd hw hmore
  · refine ⟨_, by rw [Walk.turn, hw], h.pop hw, ?_⟩
    have hline : line { w with stack := rest, done := b :: w.done }
      = w.line := by
      unfold line
      rw [hw]
      simp
    unfold left
    rw [hline, hw, List.map_cons, List.sum_cons]
    dsimp only
    omega
  · by_cases hs : f.hasBlock s = true ∧ s ∉ w.line
    · obtain ⟨hhere, hnew⟩ := hs
      obtain ⟨sb, hsb⟩ := Func.block?_of_hasBlock hfull hhere
      obtain ⟨hunder, hlen⟩ := h.push hw hsb hnew
      refine ⟨_, ?_, hunder, ?_⟩
      · have hcond : (f.hasBlock s && !w.seen.containsInt s) = true := by
          rw [hhere, Bool.true_and, Bool.not_eq_true', Bool.eq_false_iff]
          exact fun hc => hnew ((h.containsInt_iff hhere).mp hc)
        have hsuccs : f.successors s = .ok sb.targets := by
          rw [Func.successors, Func.block_eq_ok.mpr hsb]
          rfl
        rw [Walk.turn, hw]
        dsimp only
        rw [if_pos hcond, hsuccs]
        rfl
      · have hle := hunder.length_line_le
        have htwo := sb.length_targets_le
        unfold left
        rw [hlen, hw]
        rw [hlen] at hle
        simp only [List.map_cons, List.sum_cons, List.length_cons]
        omega
    · rw [not_and, not_not] at hs
      refine ⟨_, ?_, h.skip hw hs, ?_⟩
      · have hcond : (f.hasBlock s && !w.seen.containsInt s) = false := by
          rw [Bool.and_eq_false_iff]
          cases hhere : f.hasBlock s with
          | false => exact Or.inl rfl
          | true =>
              right
              rw [Bool.not_eq_false', (h.containsInt_iff hhere)]
              exact hs hhere
        rw [Walk.turn, hw]
        dsimp only
        rw [hcond]
        rfl
      · have hline : line { w with stack := (b, ss) :: rest } = w.line := by
          unfold line
          rw [hw]
          rfl
        unfold left
        rw [hline, hw]
        simp only [List.map_cons, List.sum_cons, List.length_cons]
        omega

/-- A walk whose stack is empty has listed the reachable blocks in order. -/
theorem Underway.inOrder (h : Underway f w) (hw : w.stack = []) :
    InOrder f w.done := by
  have hline : w.line = w.done := by
    unfold line
    rw [hw]
    rfl
  refine ⟨hline ▸ h.distinct,
    fun b => ⟨fun hb => (h.reached b (hline ▸ hb)).2, fun hb => ?_⟩,
    hline ▸ h.entry, fun b hb hne => ?_⟩
  · -- what is listed contains the entry and is closed under edges
    refine hb.induct (P := fun b => b ∈ w.done) ?_ fun p b _ hp hedge hhere =>
      ?_
    · rw [← hline]
      exact List.mem_of_mem_head? h.entry
    · rw [← hline]
      exact h.closed p hp b hedge hhere
  · obtain ⟨before, behind, hsplit⟩ := List.append_of_mem hb
    obtain ⟨p, hp, hedge⟩ := h.parent before b behind (hline.trans hsplit) hne
    have hnd : (before ++ b :: behind).Nodup := hsplit ▸ hline ▸ h.distinct
    have hnot : b ∉ before := fun hin =>
      (List.nodup_append.mp hnd).2.2 b hin b List.mem_cons_self rfl
    refine ⟨p, ?_, hedge, ?_⟩
    · rw [hsplit]
      exact List.mem_append_left _ hp
    · rw [hsplit, List.idxOf_append_of_mem hp, List.idxOf_append_of_notMem hnot]
      have := List.idxOf_lt_length_of_mem hp
      omega

/-- With turns enough the walk ends by itself. -/
theorem Underway.run (hfull : ∀ o ∈ f.blocks, o.isSome = true) {fuel : Nat}
    (h : Underway f w) (henough : left f w ≤ fuel) :
    ∃ order, Walk.run f fuel w = .ok order ∧ Ends f w order
        ∧ InOrder f order := by
  induction fuel generalizing w with
  | zero =>
      by_cases hw : w.stack = []
      · exact ⟨w.done, rfl, .done hw, h.inOrder hw⟩
      · obtain ⟨w', -, -, hlt⟩ := h.turn hfull hw
        omega
  | succ fuel ih =>
      by_cases hw : w.stack = []
      · refine ⟨w.done, ?_, .done hw, h.inOrder hw⟩
        rw [Walk.run, if_pos (by rw [hw]; rfl)]
      · obtain ⟨w', hturn, hunder, hlt⟩ := h.turn hfull hw
        obtain ⟨order, hrun, hends, hin⟩ := ih hunder (by omega)
        refine ⟨order, ?_, .turn hw hturn hends, hin⟩
        rw [Walk.run, if_neg (by simpa using hw), hturn, ok_bind]
        exact hrun

end Walk

/-- The walk from the entry, before its first turn. -/
def startWalk (f : Func) (eb : Block) : Walk :=
  ⟨[(f.entry, eb.targets)],
    (BitSet.ofCapacity (Int64.ofNat f.blocks.length)).insert f.entry.toNat, []⟩

/-- The walk starts underway, with the entry on its line. -/
theorem startWalk_underway {eb : Block} (heb : f.block? f.entry = some eb) :
    (startWalk f eb).Underway f := by
  have hhere := Func.hasBlock_of_block? heb
  obtain ⟨e, he, -⟩ := Func.hasBlock_iff.mp hhere
  have hline : (startWalk f eb).line = [f.entry] := rfl
  refine ⟨by rw [hline]; exact List.nodup_singleton _,
    fun k => ?_, fun b hb => ?_,
    by rw [hline]; rfl, fun before b behind hsplit hne => ?_,
      fun b ss hb s hs => ?_,
    fun b ss hb s hs _ => ?_, fun b hb => by cases hb⟩
  · rw [hline]
    show ((BitSet.ofCapacity _).insert f.entry.toNat).contains k = true ↔ _
    rw [BitSet.contains_insert, BitSet.contains_ofCapacity, Bool.false_or,
      decide_eq_true_eq,
      List.mem_singleton, he, Int.toNat_natCast, Nat.cast_inj, eq_comm]
  · rw [hline, List.mem_singleton] at hb
    exact hb ▸ ⟨hhere, .entry⟩
  · rw [hline] at hsplit
    have hb : b ∈ [f.entry] := by
      rw [hsplit]
      simp
    exact absurd (List.mem_singleton.mp hb) hne
  · cases List.mem_singleton.mp hb
    exact ⟨eb, heb, hs⟩
  · cases List.mem_singleton.mp hb
    obtain ⟨eb', heb', hmem⟩ := hs
    rw [heb, Option.some.injEq] at heb'
    exact Or.inl (heb' ▸ hmem)

/-- Where no place is vacant, the walk from the entry ends by itself and lists
the reachable blocks in order. -/
theorem reversePostOrder_spec
    (hfull : ∀ o ∈ f.blocks, o.isSome = true) {eb : Block}
    (heb : f.block? f.entry = some eb) :
    ∃ order, reversePostOrder f = .ok order ∧ (startWalk f eb).Ends f order
        ∧ InOrder f order := by
  have hhere := Func.hasBlock_of_block? heb
  have hleft : (startWalk f eb).left f ≤ 3 * f.blocks.length := by
    obtain ⟨e, -, hlt⟩ := Func.hasBlock_iff.mp hhere
    have htwo := eb.length_targets_le
    show 3 * (f.blocks.length - 1) + (eb.targets.length + 1 + 0) ≤ _
    omega
  obtain ⟨order, hrun, hends, hin⟩ := (startWalk_underway heb).run hfull hleft
  refine ⟨order, ?_, hends, hin⟩
  have hsuccs : f.successors f.entry = .ok eb.targets := by
    rw [Func.successors, Func.block_eq_ok.mpr heb]
    rfl
  rw [reversePostOrder, if_pos hhere, hsuccs, ok_bind]
  exact hrun

end Dominance

end MirBackend
