/-
Operations on several sets of numbers.

A program works on several bit sets at a time, of different lengths. `run`
executes operations on registers that hold bit sets, `runSets` says what they
mean for registers that hold finite sets, and `run_refines` that the one does
what the other says and that every question about a register has the answer
of its set. One lemma says so of a single operation (`exec_refines`); the run
follows by induction on the list of operations.

The registers begin without storage, so that a run is any sequence of
operations, with those that give a register its first set among them.
-/
import Mathlib
import MirBackend.Proofs.NumberSets

namespace MirBackend

/-- An operation on registers that hold sets; `r` is the register it changes. -/
inductive SetOp (ρ : Type) where
  | make (r : ρ) (n : Int64)
  | of (r : ρ) (ks : List Int)
  | copy (r x : ρ)
  | set (r : ρ) (k : Int)
  | setAll (r : ρ) (ks : List Int)
  | add (r : ρ) (k : Int)
  | clear (r : ρ) (k : Int)
  | merge (r x : ρ)
  | intersect (r x : ρ)
  | subtract (r x : ρ)
  | reset (r : ρ)

namespace SetOp

variable {ρ : Type}

/-- What is put in is not negative. -/
def Natural : SetOp ρ → Prop
  | .of _ ks | .setAll _ ks => ∀ k ∈ ks, 0 ≤ k
  | .set _ k | .add _ k => 0 ≤ k
  | _ => True

-- Whether an operation has natural numbers only can be looked at.
instance : (op : SetOp ρ) → Decidable op.Natural
  | .of _ ks | .setAll _ ks => inferInstanceAs (Decidable (∀ k ∈ ks, 0 ≤ k))
  | .set _ k | .add _ k => inferInstanceAs (Decidable (0 ≤ k))
  | .make .. | .copy .. | .clear .. | .merge .. | .intersect
      .. | .subtract .. | .reset .. =>
      inferInstanceAs (Decidable True)

variable [DecidableEq ρ]

-- ============================================================ one operation

/-- Carry the operation out on bit sets. With the registers comes what `add`
tells. -/
def exec : SetOp ρ → (ρ → BitSet) → Checked (List Bool × (ρ → BitSet))
  | .make r n, s => .ok ([], Function.update s r (.ofCapacity n))
  | .of r ks, s => do return ([], Function.update s r (← BitSet.ofInts ks))
  | .copy r x, s => .ok ([], Function.update s r (s x).copy)
  | .set r k, s => do return ([], Function.update s r (← (s r).insertInt k))
  | .setAll r ks, s =>
    do return ([], Function.update s r (← (s r).insertInts ks))
  | .add r k, s => do
      let (new, t) ← (s r).addInt k
      return ([new], Function.update s r t)
  | .clear r k, s => .ok ([], Function.update s r ((s r).eraseInt k))
  | .merge r x, s => .ok ([], Function.update s r ((s r).union (s x)))
  | .intersect r x, s => .ok ([], Function.update s r ((s r).inter (s x)))
  | .subtract r x, s => .ok ([], Function.update s r ((s r).diff (s x)))
  | .reset r, s => .ok ([], Function.update s r (s r).clear)

/-- What the operation means for sets of numbers. -/
def onSets : SetOp ρ → (ρ → Finset Nat) → List Bool × (ρ → Finset Nat)
  | .make r _, S => ([], Function.update S r ∅)
  | .of r ks, S => ([], Function.update S r (ks.map Int.toNat).toFinset)
  | .copy r x, S => ([], Function.update S r (S x))
  | .set r k, S => ([], Function.update S r (insert k.toNat (S r)))
  | .setAll r ks, S =>
    ([], Function.update S r (S r ∪ (ks.map Int.toNat).toFinset))
  | .add r k, S =>
    ([decide (k.toNat ∉ S r)], Function.update S r (insert k.toNat (S r)))
  | .clear r k, S =>
    ([], Function.update S r ((S r).filter fun n : Nat => (n : Int) ≠ k))
  | .merge r x, S => ([], Function.update S r (S r ∪ S x))
  | .intersect r x, S => ([], Function.update S r (S r ∩ S x))
  | .subtract r x, S => ([], Function.update S r (S r \ S x))
  | .reset r, S => ([], Function.update S r ∅)

/-- The sets that registers stand for. -/
def stoodFor (s : ρ → BitSet) (r : ρ) : Finset Nat := (s r).elems

/-- Setting a register sets what it stands for. -/
theorem stoodFor_update (s : ρ → BitSet) (r : ρ) (t : BitSet) :
    stoodFor (Function.update s r t) = Function.update (stoodFor s) r t.elems :=
  funext fun x => Function.apply_update (fun _ => BitSet.elems) s r t x

/-- An operation answers, and does to the sets what it means for them. -/
theorem exec_refines {op : SetOp ρ} (h : op.Natural) (s : ρ → BitSet) :
    ∃ told s', op.exec s = .ok (told, s') ∧ op.onSets
      (stoodFor s) = (told, stoodFor s') := by
  cases op with
  | make r n =>
    exact ⟨_, _, rfl, by rw [stoodFor_update, BitSet.elems_ofCapacity, onSets]⟩
  | of r ks =>
      obtain ⟨t, ht, helems⟩ := BitSet.insertInts_spec (.ofCapacity 0) h
      refine ⟨[], Function.update s r t, ?_, ?_⟩
      · rw [exec, BitSet.ofInts, ht]
        rfl
      · rw [stoodFor_update, helems, BitSet.elems_ofCapacity,
          Finset.empty_union, onSets]
  | copy r x =>
    exact ⟨_, _, rfl, by rw [stoodFor_update, BitSet.elems_copy, onSets]; rfl⟩
  | set r k =>
      refine ⟨[], Function.update s r ((s r).insert k.toNat), ?_, ?_⟩
      · rw [exec, BitSet.insertInt_of_nonneg _ h]
        rfl
      · rw [stoodFor_update, BitSet.elems_insert, onSets]
        rfl
  | setAll r ks =>
      obtain ⟨t, ht, helems⟩ := BitSet.insertInts_spec (s r) h
      refine ⟨[], Function.update s r t, ?_, ?_⟩
      · rw [exec, ht]
        rfl
      · rw [stoodFor_update, helems, onSets]
        rfl
  | add r k =>
      obtain ⟨t, ht, helems⟩ := BitSet.addInt_of_nonneg (s r) h
      refine ⟨[decide (k.toNat ∉ (s r).elems)], Function.update s r t, ?_, ?_⟩
      · rw [exec, ht]
        rfl
      · rw [stoodFor_update, helems, onSets]
        rfl
  | clear r k =>
    exact ⟨_, _,
      rfl, by rw [stoodFor_update, BitSet.elems_eraseInt, onSets]; rfl⟩
  | merge r x =>
    exact ⟨_, _, rfl, by rw [stoodFor_update, BitSet.elems_union, onSets]; rfl⟩
  | intersect r x =>
    exact ⟨_, _, rfl, by rw [stoodFor_update, BitSet.elems_inter, onSets]; rfl⟩
  | subtract r x =>
    exact ⟨_, _, rfl, by rw [stoodFor_update, BitSet.elems_diff, onSets]; rfl⟩
  | reset r =>
    exact ⟨_, _, rfl, by rw [stoodFor_update, BitSet.elems_clear, onSets]⟩

-- ==================================================================== runs

/-- Carry operations out one after the other, and collect what `add` tells. -/
def run : List (SetOp ρ) → (ρ → BitSet) → Checked (List Bool × (ρ → BitSet))
  | [], s => .ok ([], s)
  | op :: ops, s => do
      let (now, s) ← op.exec s
      let (later, s) ← run ops s
      return (now ++ later, s)

/-- What operations one after the other mean for sets of numbers. -/
def runSets : List (SetOp ρ) → (ρ → Finset Nat) → List Bool × (ρ → Finset Nat)
  | [], S => ([], S)
  | op :: ops, S =>
      let (now, S) := op.onSets S
      let (later, S) := runSets ops S
      (now ++ later, S)

/-- A run of operations is the run of the same operations on finite sets, with
the same answers. -/
theorem run_stoodFor {ops : List (SetOp ρ)} (h : ∀ op ∈ ops, op.Natural)
    (s : ρ → BitSet) :
    ∃ told s', run ops s = .ok (told, s') ∧ runSets ops
      (stoodFor s) = (told, stoodFor s') := by
  induction ops generalizing s with
  | nil => exact ⟨[], s, rfl, rfl⟩
  | cons op ops ih =>
      rw [List.forall_mem_cons] at h
      obtain ⟨now, s₁, hexec, hmeans⟩ := exec_refines h.1 s
      obtain ⟨later, s₂, hrun, hthen⟩ := ih h.2 s₁
      refine ⟨now ++ later, s₂, ?_, ?_⟩
      · rw [run, hexec, ok_bind]
        dsimp only
        rw [hrun]
        rfl
      · rw [runSets, hmeans]
        dsimp only
        rw [hthen]

/-- After any operations that put in no negative number the registers hold what
the operations mean for sets, and all that can be asked about them has the
answer of the sets. -/
theorem run_refines {ops : List (SetOp ρ)} (h : ∀ op ∈ ops, op.Natural) :
    ∃ told s S, run ops (fun _ => .empty) = .ok (told, s) ∧ runSets ops
      (fun _ => ∅) = (told, S)
      ∧ ∀ r : ρ,
        (∀ k : Int, (s r).containsInt k = true ↔ ∃ n ∈ S r, (n : Int) = k)
        ∧ (s r).size = (S r).card
        ∧ (s r).toList = (S r).sort
        ∧ (∀ {σ : Type} (f : σ → Nat → σ × Bool) (init : σ), ∃ seen,
            BitSet.Visits f init (S r).sort seen
            ∧ (s r).foldUntil f init = BitSet.visited f init seen)
        ∧ ∀ x : ρ, (s r).sameElems (s x) = true ↔ S r = S x := by
  have hstart : stoodFor (fun _ : ρ => BitSet.empty) = fun _ => ∅ :=
    funext fun _ => BitSet.elems_empty
  obtain ⟨told, s, hrun, hsets⟩ := run_stoodFor h fun _ => .empty
  rw [hstart] at hsets
  refine ⟨told, s, stoodFor s, hrun, hsets,
    fun r => ⟨(s r).containsInt_iff, (s r).size_eq_card,
    (s r).toList_eq_sort, fun f init => ?_, fun x => BitSet.sameElems_iff⟩⟩
  rw [stoodFor, ← BitSet.toList_eq_sort]
  exact BitSet.foldUntil_go_visits f init _

/-- Sets of two and of four words, with numbers on both sides of the ends of
words. -/
def mixed : List (SetOp Bool) :=
  [.of false [1, 63, 64, 200], .make true 0, .set true 64,
    .add true 64, .add true 127,
    .subtract false true, .merge true false, .clear false (-1), .copy true true]

/-- A run on two registers. -/
theorem run_refines_mixed :
    (∀ op ∈ mixed, op.Natural)
    ∧ ∃ s, run mixed (fun _ => .empty) = .ok ([false, true], s)
      ∧ (s false).size = 3 ∧ (s true).size = 5
      ∧ (s false).containsInt 64 = false ∧ (s true).containsInt 200 = true
      ∧ (s false).sameElems (s true) = false := by
  have hnatural : ∀ op ∈ mixed, op.Natural := by decide
  obtain ⟨told, s, S, hrun, hsets, hall⟩ := run_refines hnatural
  have htold : told = (runSets mixed fun _ => ∅).1 := by rw [hsets]
  have hS : S = (runSets mixed fun _ => ∅).2 := by rw [hsets]
  obtain ⟨hleft, hleftSize, -, -, hsame⟩ := hall false
  obtain ⟨hright, hrightSize, -⟩ := hall true
  refine ⟨hnatural, s, by rw [hrun, htold]; rfl, ?_, ?_, ?_, ?_, ?_⟩
  · rw [hleftSize, hS]
    decide
  · rw [hrightSize, hS]
    decide
  · rw [Bool.eq_false_iff, ne_eq, hleft, hS]
    decide
  · rw [hright, hS]
    decide
  · rw [Bool.eq_false_iff, ne_eq, hsame, hS]
    decide

end SetOp

end MirBackend
