/-
Paths from the entry, reachability and dominance.

A walk follows edges from the entry and remembers where it has been. A block
is reachable when a walk ends there, and `a` dominates `b` when every walk to
`b` has been at `a`. These are the notions that analyses and passes are
measured by; `reachable_spec` says that the depth-first search finds the
reachable blocks and no others.

The search marks a block when it is put on the stack, so every block is put
there at most once. Its invariant counts: the blocks not yet marked and those
on the stack are at most as many as the expansions left.
-/
import Mathlib
import MirBackend.Func.Reach
import MirBackend.Proofs.BitSet
import MirBackend.Proofs.Func.Instrs

namespace MirBackend.Func

variable {f : Func} {a b c p : BlockId}

-- =================================================================== walks

/-- A walk from the entry to a block over edges between blocks that are there,
with the blocks it visited, the last one first. -/
inductive Walk (f : Func) : BlockId → List BlockId → Prop where
  | start : Walk f f.entry [f.entry]
  | step {p b : BlockId} {trail : List BlockId} (walk : Walk f p trail)
      (edge : f.HasEdge p b)
      (here : f.hasBlock b = true) : Walk f b (b :: trail)

/-- A walk ends there. -/
def Reachable (f : Func) (b : BlockId) : Prop := ∃ trail, f.Walk b trail

/-- Every walk to `b` visits `a`. -/
def Dominates (f : Func) (a b : BlockId) : Prop :=
  ∀ trail, f.Walk b trail → a ∈ trail

/-- The entry is reached by the path of no edge. -/
theorem Reachable.entry : f.Reachable f.entry := ⟨_, .start⟩

/-- Whatever an edge leads to from a block that is reached, is reached. -/
theorem Reachable.step (hp : f.Reachable p) (he : f.HasEdge p b)
    (hb : f.hasBlock b = true) : f.Reachable b := by
  obtain ⟨trail, hw⟩ := hp
  exact ⟨_, hw.step he hb⟩

/-- What is reachable is the entry or is reached over an edge. -/
theorem Reachable.cases (hb : f.Reachable b) :
    b = f.entry ∨ ∃ p, f.Reachable p ∧ f.HasEdge p b ∧ f.hasBlock b = true := by
  obtain ⟨trail, hw⟩ := hb
  cases hw with
  | start => exact Or.inl rfl
  | step hw he hb => exact Or.inr ⟨_, ⟨_, hw⟩, he, hb⟩

/-- A property of the entry that edges hand on holds of what is reachable. -/
theorem Reachable.induct {P : BlockId → Prop} (hentry : P f.entry)
    (hstep : ∀ p b, f.Reachable p → P p → f.HasEdge p b →
      f.hasBlock b = true → P b)
    (hb : f.Reachable b) : P b := by
  obtain ⟨trail, hw⟩ := hb
  induction hw with
  | start => exact hentry
  | step hw he hb ih => exact hstep _ _ ⟨_, hw⟩ ih he hb

/-- A walk ends at its block. -/
theorem Walk.mem_self {trail : List BlockId}
    (h : f.Walk b trail) : b ∈ trail := by
  cases h <;> exact List.mem_cons_self

/-- A walk begins at the entry. -/
theorem Walk.entry_mem {trail : List BlockId} (h : f.Walk b trail) :
    f.entry ∈ trail := by
  induction h with
  | start => exact List.mem_cons_self
  | step _ _ _ ih => exact List.mem_cons_of_mem _ ih

/-- What a walk visits is reachable, by a part of the walk. -/
theorem Walk.part_of_mem {trail : List BlockId} (h : f.Walk b trail)
    (ha : a ∈ trail) : ∃ part, f.Walk a part ∧ part.IsSuffix trail := by
  induction h with
  | start =>
      rw [List.mem_singleton] at ha
      subst ha
      exact ⟨_, .start, List.suffix_refl _⟩
  | step hw he hb ih =>
      rcases List.mem_cons.mp ha with rfl | ha
      · exact ⟨_, hw.step he hb, List.suffix_refl _⟩
      · obtain ⟨part, hpart, hsuf⟩ := ih ha
        exact ⟨part, hpart, hsuf.trans (List.suffix_cons _ _)⟩

/-- All the blocks of a walk are reached, by its first part. -/
theorem Walk.reachable_of_mem {trail : List BlockId} (h : f.Walk b trail)
    (ha : a ∈ trail) : f.Reachable a := by
  obtain ⟨part, hpart, -⟩ := h.part_of_mem ha
  exact ⟨part, hpart⟩

/-- What is reachable in a well-formed function is there. -/
theorem WellFormed.block?_of_reachable (h : f.WellFormed) (hb : f.Reachable b) :
    ∃ blk, f.block? b = some blk := by
  rcases hb.cases with rfl | ⟨-, -, -, hhere⟩
  · obtain ⟨blk, hblk, -⟩ := h.entry
    exact ⟨blk, hblk⟩
  · exact block?_of_hasBlock h.full hhere

/-- The same edges and places make the same walks. -/
theorem Walk.transfer {g : Func} (hentry : g.entry = f.entry)
    (hedge : ∀ p b, f.HasEdge p b → g.HasEdge p b)
    (hhere : ∀ b, f.hasBlock b = true → g.hasBlock b = true)
    {trail : List BlockId} (h : f.Walk b trail) : g.Walk b trail := by
  induction h with
  | start => exact hentry ▸ .start
  | step _ he hb ih => exact ih.step (hedge _ _ he) (hhere _ hb)

/-- Changes that leave the edges leave the walks. -/
theorem Reshaped.walk_iff {g : Func} (h : f.Reshaped g) {trail : List BlockId} :
    g.Walk b trail ↔ f.Walk b trail := by
  have hhere (b : BlockId) : g.hasBlock b = true ↔ f.hasBlock b = true := by
    rw [hasBlock_iff, hasBlock_iff, h.length]
  constructor
  · exact Walk.transfer h.entry.symm (fun _ _ => h.hasEdge.mp)
      fun b => (hhere b).mp
  · exact Walk.transfer h.entry (fun _ _ => h.hasEdge.mpr)
      fun b => (hhere b).mpr

/-- Reshaping reaches the same blocks. -/
theorem Reshaped.reachable_iff {g : Func} (h : f.Reshaped g) :
    g.Reachable b ↔ f.Reachable b := by
  simp only [Reachable, h.walk_iff]

-- ======================================================= depth-first search

/-- What the targets that exist and were not seen add to stack and set. -/
theorem pushUnseen_spec (succs : List BlockId) (stack : List Nat)
    (seen : BitSet) (marked : List Nat)
    (hseen : ∀ k, seen.contains k = true ↔ k ∈ marked) :
    ∃ (fresh : List Nat) (seen' : BitSet),
      f.pushUnseen succs (stack.map Int.ofNat, seen)
          = ((fresh ++ stack).map Int.ofNat, seen')
      ∧ (∀ k, seen'.contains k = true ↔ k ∈ fresh ++ marked)
      ∧ fresh.Nodup ∧ (∀ k ∈ fresh, k ∉ marked ∧ (k : Int) ∈ succs
        ∧ f.hasBlock k = true)
      ∧ ∀ s ∈ succs, f.hasBlock s = true → s.toNat ∈ fresh ++ marked := by
  induction succs generalizing stack seen marked with
  | nil => exact ⟨[], seen, rfl, hseen, List.nodup_nil, by simp, by simp⟩
  | cons s succs ih =>
      cases s with
      -- a negative number is no block
      | negSucc s =>
          obtain ⟨fresh, seen', heq, hseen', hnd, hfresh, hall⟩ :=
            ih stack seen marked hseen
          refine ⟨fresh, seen', heq, hseen', hnd, fun k hk => ?_,
            fun t ht hb => ?_⟩
          · obtain ⟨h1, h2, h3⟩ := hfresh k hk
            exact ⟨h1, List.mem_cons_of_mem _ h2, h3⟩
          · rcases List.mem_cons.mp ht with rfl | ht
            · obtain ⟨i, hi, -⟩ := hasBlock_iff.mp hb
              cases hi
            · exact hall t ht hb
      | ofNat s =>
          by_cases hs : f.hasBlock (s : Int) = true ∧ s ∉ marked
          · -- a block that was not seen
            have hstep : f.pushUnseen (Int.ofNat s :: succs)
                (stack.map Int.ofNat, seen)
                = f.pushUnseen succs ((s :: stack).map Int.ofNat,
                seen.insert s) := by
              have hns : seen.contains s = false := by
                rw [Bool.eq_false_iff]
                exact fun h => hs.2 ((hseen s).mp h)
              rw [pushUnseen, hns, hs.1]
              rfl
            have hseen₁ : ∀ k, (seen.insert s).contains k = true
                ↔ k ∈ s :: marked := by
              intro k
              rw [BitSet.contains_insert, Bool.or_eq_true, hseen k,
                decide_eq_true_eq, List.mem_cons, or_comm, eq_comm]
            obtain ⟨fresh, seen', heq, hseen', hnd, hfresh, hall⟩ :=
              ih (s :: stack) (seen.insert s) (s :: marked) hseen₁
            refine ⟨fresh ++ [s], seen', ?_, fun k => ?_, ?_, fun k hk => ?_,
              fun t ht hb => ?_⟩
            · rw [hstep, heq]
              simp
            · rw [hseen' k]
              simp
            · rw [List.nodup_append]
              refine ⟨hnd, List.nodup_singleton s, fun x hx y hy hxy => ?_⟩
              rw [List.mem_singleton] at hy
              exact (hfresh x hx).1 (by rw [hxy, hy]; exact List.mem_cons_self)
            · rcases List.mem_append.mp hk with hk | hk
              · obtain ⟨h1, h2, h3⟩ := hfresh k hk
                exact ⟨fun h => h1 (List.mem_cons_of_mem _ h),
                  List.mem_cons_of_mem _ h2, h3⟩
              · rw [List.mem_singleton] at hk
                subst hk
                exact ⟨hs.2, List.mem_cons_self, hs.1⟩
            · rcases List.mem_cons.mp ht with rfl | ht
              · simp
              · have := hall t ht hb
                simp only [List.mem_append, List.mem_cons] at this ⊢
                tauto
          · -- nothing new
            have hstep : f.pushUnseen (Int.ofNat s :: succs)
                (stack.map Int.ofNat, seen)
                = f.pushUnseen succs (stack.map Int.ofNat, seen) := by
              have hcond : (f.hasBlock (s : Int) && !seen.contains s)
                  = false := by
                rw [Bool.and_eq_false_iff, Bool.not_eq_false', hseen s]
                by_contra hcon
                push Not at hcon
                exact hs ⟨by simpa using hcon.1, hcon.2⟩
              rw [pushUnseen, hcond]
              rfl
            obtain ⟨fresh, seen', heq, hseen', hnd, hfresh, hall⟩ :=
              ih stack seen marked hseen
            refine ⟨fresh, seen', by rw [hstep, heq], hseen', hnd,
              fun k hk => ?_, fun t ht hb => ?_⟩
            · obtain ⟨h1, h2, h3⟩ := hfresh k hk
              exact ⟨h1, List.mem_cons_of_mem _ h2, h3⟩
            · rcases List.mem_cons.mp ht with rfl | ht
              · have hmem : s ∈ marked := by
                  by_contra hcon
                  exact hs ⟨hb, hcon⟩
                exact List.mem_append_right _ hmem
              · exact hall t ht hb

/-- The state of the search: what is marked is reachable, and what is marked and
not on the stack was expanded. -/
structure Searching (f : Func) (stack marked : List Nat) : Prop where
  distinct : marked.Nodup
  onStack : ∀ k ∈ stack, k ∈ marked
  reached : ∀ k ∈ marked, f.hasBlock k = true ∧ f.Reachable k
  entry : ∃ e : Nat, f.entry = e ∧ e ∈ marked
  expanded : ∀ k ∈ marked, k ∉ stack → ∀ s, f.HasEdge k s →
    f.hasBlock s = true → s.toNat ∈ marked

/-- Numbers of places without repetition are at most as many as there are
places. -/
theorem length_le_blocks {ks : List Nat} (hnd : ks.Nodup)
    (hk : ∀ k ∈ ks, f.hasBlock k = true) : ks.length ≤ f.blocks.length := by
  have hsub : ks ⊆ List.range f.blocks.length := by
    intro k hkm
    obtain ⟨i, hi, hlt⟩ := hasBlock_iff.mp (hk k hkm)
    rw [Nat.cast_inj] at hi
    exact List.mem_range.mpr (hi ▸ hlt)
  have := (hnd.subperm hsub).length_le
  simpa using this

/-- Expanding the block on top of the stack keeps the state of the search. -/
theorem Searching.expand {k : Nat} {stack marked fresh : List Nat} {blk : Block}
    (h : f.Searching (k :: stack) marked) (hblk : f.block? k = some blk)
    (hnd : fresh.Nodup) (hfresh : ∀ j ∈ fresh, j ∉ marked
      ∧ (j : Int) ∈ blk.targets ∧ f.hasBlock j = true)
    (hall : ∀ s ∈ blk.targets, f.hasBlock s = true →
      s.toNat ∈ fresh ++ marked) :
    f.Searching (fresh ++ stack) (fresh ++ marked) := by
  obtain ⟨e, he, hem⟩ := h.entry
  refine ⟨?_, fun j hj => ?_, fun j hj => ?_,
    ⟨e, he, List.mem_append_right _ hem⟩, ?_⟩
  · rw [List.nodup_append]
    exact ⟨hnd, h.distinct, fun x hx y hy hxy => (hfresh x hx).1 (hxy ▸ hy)⟩
  · rcases List.mem_append.mp hj with hj | hj
    · exact List.mem_append_left _ hj
    · exact List.mem_append_right _ (h.onStack j (List.mem_cons_of_mem _ hj))
  · rcases List.mem_append.mp hj with hj | hj
    · obtain ⟨-, hmem, hhere⟩ := hfresh j hj
      have hk := (h.reached k (h.onStack k List.mem_cons_self)).2
      exact ⟨hhere, hk.step ⟨blk, hblk, hmem⟩ hhere⟩
    · exact h.reached j hj
  · intro j hj hns s hedge hhere
    by_cases hjk : j = k
    · subst hjk
      obtain ⟨jb, hjb, hs⟩ := hedge
      rw [hblk, Option.some.injEq] at hjb
      exact hall s (hjb ▸ hs) hhere
    · have hjm : j ∈ marked := by
        rcases List.mem_append.mp hj with hj | hj
        · exact absurd (List.mem_append_left _ hj) hns
        · exact hj
      have hnot : j ∉ k :: stack := by
        rw [List.mem_cons, not_or]
        exact ⟨hjk, fun hjs => hns (List.mem_append_right _ hjs)⟩
      exact List.mem_append_right _ (h.expanded j hjm hnot s hedge hhere)

/-- The search ends with everything marked expanded, if the blocks that are not
marked and those on the stack are at most as many as the expansions left. -/
theorem reachLoop_spec (hfull : ∀ o ∈ f.blocks, o.isSome = true) (fuel : Nat)
    (stack marked : List Nat) (seen : BitSet)
    (hseen : ∀ k, seen.contains k = true ↔ k ∈ marked)
    (h : f.Searching stack marked)
    (henough : f.blocks.length + stack.length ≤ fuel + marked.length) :
    ∃ r marked', f.reachLoop fuel (stack.map Int.ofNat, seen) = .ok r
      ∧ (∀ k, r.contains k = true ↔ k ∈ marked') ∧ f.Searching [] marked' := by
  induction fuel generalizing stack marked seen with
  | zero =>
      have hle := length_le_blocks h.distinct fun k hk => (h.reached k hk).1
      have hnil : stack = [] := List.length_eq_zero_iff.mp (by omega)
      subst hnil
      exact ⟨seen, marked, by simp [reachLoop], hseen, h⟩
  | succ fuel ih =>
      cases stack with
      | nil => exact ⟨seen, marked, by simp [reachLoop], hseen, h⟩
      | cons k stack =>
          have hk := (h.reached k (h.onStack k List.mem_cons_self)).1
          obtain ⟨blk, hblk⟩ := block?_of_hasBlock hfull hk
          obtain ⟨fresh, seen', heq, hseen', hnd, hfresh, hall⟩ :=
            pushUnseen_spec (f := f) blk.targets stack seen marked hseen
          have hcount : f.blocks.length + (fresh ++ stack).length
              ≤ fuel + (fresh ++ marked).length := by
            rw [List.length_append, List.length_append]
            rw [List.length_cons] at henough
            omega
          obtain ⟨r, marked', hr, hrest⟩ :=
            ih (fresh ++ stack) (fresh ++ marked) seen' hseen'
            (h.expand hblk hnd hfresh hall) hcount
          refine ⟨r, marked', ?_, hrest⟩
          have hsuccs : f.successors (Int.ofNat k) = .ok blk.targets := by
            rw [successors, show f.block (Int.ofNat k) = .ok blk
              from block_eq_ok.mpr hblk]
            rfl
          rw [List.map_cons, reachLoop, hsuccs, ok_bind, heq]
          exact hr

/-- The search finds the reachable blocks and no others. -/
theorem reachable_spec (hfull : ∀ o ∈ f.blocks, o.isSome = true)
    (hentry : f.hasBlock f.entry = true) :
    ∃ r, f.reachable = .ok r ∧ ∀ k : Nat, r.contains k = true
        ↔ f.Reachable k := by
  obtain ⟨e, he, hlt⟩ := hasBlock_iff.mp hentry
  have hseen :
      ∀ k, ((BitSet.ofCapacity (Int64.ofNat f.blocks.length)).insert e).contains
      k = true
      ↔ k ∈ [e] := by
    intro k
    rw [BitSet.contains_insert, BitSet.contains_ofCapacity, Bool.false_or,
      decide_eq_true_eq, List.mem_singleton, eq_comm]
  have hstart : f.Searching [e] [e] := by
    refine ⟨List.nodup_singleton e, fun _ h => h, fun k hk => ?_,
      ⟨e, he, List.mem_cons_self⟩, ?_⟩
    · rw [List.mem_singleton.mp hk, ← he]
      exact ⟨hentry, .entry⟩
    · exact fun k hk hns => absurd hk hns
  obtain ⟨r, marked, hr, hmarked, hdone⟩ :=
    reachLoop_spec hfull f.blocks.length [e] [e] _ hseen hstart (by simp)
  refine ⟨r, ?_, fun k => ?_⟩
  · unfold reachable
    rw [if_pos hentry, he]
    exact hr
  · rw [hmarked]
    constructor
    · exact fun hk => (hdone.reached k hk).2
    · -- what is marked contains the entry and is closed under edges
      intro hk
      have hclosed : (k : Int).toNat ∈ marked := by
        refine hk.induct (P := fun b => b.toNat ∈ marked) ?_ ?_
        · obtain ⟨e', he', hmem⟩ := hdone.entry
          rw [he']
          exact hmem
        · intro p b hp hpm hedge hhere
          obtain ⟨pb, hpb, hb⟩ := hedge
          obtain ⟨i, rfl, -⟩ := block?_eq_some_iff.mp hpb
          exact hdone.expanded i hpm List.not_mem_nil b ⟨pb, hpb, hb⟩ hhere
      exact hclosed

end MirBackend.Func
