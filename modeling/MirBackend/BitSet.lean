/-
Sets of small natural numbers, one bit each, in 64-bit words.

A set starts without storage or with at least two words, and grows to the word
of the largest number ever put in; bits past the end count as absent. The one
view is `contains`: `insert`, `erase`, `union`, `inter` and `diff` are read
through it, and `toList` lists the numbers it accepts in ascending order. Two
sets of different lengths may hold the same numbers, so equality of sets is
`sameElems`, not equality of words.
-/
import MirBackend.Halt

namespace MirBackend

structure BitSet where
  words : List UInt64 := []
deriving DecidableEq, Repr

namespace BitSet

-- =================================================================== words

/-- The word with only bit `j` set. -/
def bit (j : Nat) : UInt64 := (1 : UInt64) <<< UInt64.ofNat j

/-- Whether bit `j` of a word is set. -/
def hasBit (w : UInt64) (j : Nat) : Bool := w &&& bit j != 0

/-- The bits set in a word, ascending. -/
def bitsOf (w : UInt64) : List Nat :=
  if w = 0 then [] else (List.range 64).filter (hasBit w)

/-- Storage of at least `n` words and at least two, zeros behind. -/
def grow (ws : List UInt64) (n : Nat) : List UInt64 :=
  ws ++ List.replicate (max n 2 - ws.length) 0

-- ================================================================ elements

/-- The set without storage. -/
def empty : BitSet := {}

/-- An empty set with storage for the numbers below `n`. -/
def ofCapacity (n : Int64) : BitSet := ⟨grow [] ((n + 63) / 64).toInt.toNat⟩

/-- Whether storage was ever given to the set. -/
def hasStorage (s : BitSet) : Bool := !s.words.isEmpty

def contains (s : BitSet) (k : Nat) : Bool :=
  hasBit (s.words.getD (k / 64) 0) (k % 64)

def insert (s : BitSet) (k : Nat) : BitSet :=
  ⟨(grow s.words (k / 64 + 1)).modify (k / 64) (· ||| bit (k % 64))⟩

def erase (s : BitSet) (k : Nat) : BitSet :=
  ⟨s.words.modify (k / 64) (· &&& ~~~ bit (k % 64))⟩

/-- The numbers of the set, ascending. -/
def toList (s : BitSet) : List Nat :=
  s.words.zipIdx.flatMap fun (w, i) => (bitsOf w).map (i * 64 + ·)

/-- How many numbers are in the set. -/
def size (s : BitSet) : Nat :=
  (s.words.map fun w => (bitsOf w).length).foldr (· + ·) 0

/-- Fold over the numbers in ascending order until the step says stop. -/
def foldUntil {σ : Type} (f : σ → Nat → σ × Bool) (init : σ) (s : BitSet) : σ :=
  go init s.toList
where
  go (acc : σ) : List Nat → σ
    | [] => acc
    | k :: ks => match f acc k with
      | (acc, true) => go acc ks
      | (acc, false) => acc

-- ============================================================ set algebra

/-- Combine each word of the first list with the word in the same place of the
second, or with zero where there is none. -/
def combine (g : UInt64 → UInt64 → UInt64) : List UInt64 →
    List UInt64 → List UInt64
  | [], _ => []
  | w :: ws, [] => g w 0 :: combine g ws []
  | w :: ws, v :: vs => g w v :: combine g ws vs

def union (s t : BitSet) : BitSet :=
  ⟨combine (fun w v => w ||| v) (grow s.words t.words.length) t.words⟩

def inter (s t : BitSet) : BitSet :=
  ⟨combine (fun w v => w &&& v) s.words t.words⟩

def diff (s t : BitSet) : BitSet :=
  ⟨combine (fun w v => w &&& ~~~ v) s.words t.words⟩

/-- Whether two lists of words are equal up to zeros behind. -/
def sameWords : List UInt64 → List UInt64 → Bool
  | [], vs => vs.all (· == 0)
  | ws, [] => ws.all (· == 0)
  | w :: ws, v :: vs => w == v && sameWords ws vs

/-- Whether both sets hold the same numbers, whatever their lengths. -/
def sameElems (s t : BitSet) : Bool := sameWords s.words t.words

/-- A copy with storage of its own. -/
def copy (s : BitSet) : BitSet := ⟨grow s.words s.words.length⟩

/-- The same storage with every bit cleared. -/
def clear (s : BitSet) : BitSet := ⟨s.words.map fun _ => 0⟩

-- ============================================================= signed keys

/-- Membership of any integer; negative ones are never members. -/
def containsInt (s : BitSet) : Int → Bool
  | .ofNat k => s.contains k
  | .negSucc _ => false

/-- Removal of any integer; a negative one changes nothing. -/
def eraseInt (s : BitSet) : Int → BitSet
  | .ofNat k => s.erase k
  | .negSucc _ => s

/-- Insertion of any integer; a negative one is a fault. -/
def insertInt (s : BitSet) : Int → Checked BitSet
  | .ofNat k => .ok (s.insert k)
  | .negSucc _ => .error .fault

/-- Insertion of several integers, in order. -/
def insertInts (s : BitSet) (ks : List Int) : Checked BitSet :=
  ks.foldlM insertInt s

/-- Insertion that also says whether the number was new. -/
def addInt (s : BitSet) (k : Int) : Checked (Bool × BitSet) :=
  if s.containsInt k then .ok (false, s)
  else do return (true, ← s.insertInt k)

/-- The set of the numbers listed. -/
def ofInts (ks : List Int) : Checked BitSet := (ofCapacity 0).insertInts ks

end BitSet

end MirBackend
