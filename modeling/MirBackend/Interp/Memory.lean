/-
The memory of the interpreter: words with ascending addresses.

Memory only grows. Address zero is never handed out, fresh words are zero, and
only the words that were written are kept. A value of some type lies inline:
components one after the other, arrays word for word. As a value, an array is
the address where it lies, so loading one loads its address and storing one
copies its words.

Bounds are checked before anything is read or written, in 64-bit arithmetic
that wraps; an access that passes the check only by wrapping is a fault.
-/
import MirBackend.Interp.Error
import MirBackend.Interp.Value
import Std.Data.ExtTreeMap

namespace MirBackend.Interp

structure Memory where
  /-- The first address that was not handed out. -/
  size : Nat := 1
  /-- The storage of the memory; words from `size` on are zero. -/
  room : Nat := 1
  /-- Words that were written. -/
  words : Std.ExtTreeMap Nat Int64 := ∅

instance : Inhabited Memory := ⟨{}⟩

/-- The outcome of an access: an answer, an error, or a halt. -/
abbrev Access := Except (Stop RunError)

namespace Memory

/-- The most words there can be, two to the power of 45. -/
def maxWords : Nat := 35184372088832

/-- The word at an address. -/
def get (m : Memory) (a : Nat) : Int64 := m.words.getD a 0

def set (m : Memory) (a : Nat) (x : Int64) : Memory :=
  { m with words := m.words.insert a x }

/-- The words from an address on. -/
def read (m : Memory) (a n : Nat) : Slots :=
  (List.range n).map fun i => m.get (a + i)

/-- Write words from an address on. -/
def write (m : Memory) (a : Nat) : Slots → Memory
  | [] => m
  | x :: xs => write (m.set a x) (a + 1) xs

/-- Hand out `n` fresh words; where they start. -/
def alloc (m : Memory) (n : Int64) : Checked (Int64 × Memory) :=
  if n < 0 ∨ m.size + n.toInt.toNat > maxWords then .error .fault
  else
    let size := m.size + n.toInt.toNat
    .ok (Int64.ofNat m.size,
      { m with size, room := Storage.regrown m.room size })

/-- The addresses from `a` to `b`, if they are in order and there is storage for
them. -/
def range (m : Memory) (a b : Int64) : Checked (Nat × Nat) :=
  if 0 ≤ a ∧ a ≤ b ∧ b.toInt ≤ m.room then .ok (a.toInt.toNat,
    (b.toInt - a.toInt).toNat)
  else .error .fault

/-- The words that a type takes from an address on, if all of them are in the
memory. A type without size is no matter where there is no memory anyway. -/
def extent (m : Memory) (a : Int64) (t : Ty) (e : RunError) : Access Int64 :=
  if a ≤ 0 then .error (.fail e)
  else do
    let n ← liftChecked (orFault t.size)
    if a + n > Int64.ofNat m.size then throw (.fail e)
    return n

-- ================================================================= loading

mutual

/-- Load a value of a type. -/
def load (m : Memory) (a : Int64) (t : Ty) : Access Value := do
  let n ← m.extent a t (.loadBounds a t)
  match t with
  | .array .. => return ⟨[a], 0⟩
  | .tuple ts => loadList m ts a default
  | .struct _ fs => loadFields m fs a default
  | _ =>
      let (start, count) ← liftChecked (m.range a (a + n))
      return Value.copyOf (m.read start count)

/-- Load values of types that lie one after the other and put them behind
`acc`. -/
def loadList (m : Memory) : List Ty → Int64 → Value → Access Value
  | [], _, acc => return acc
  | t :: ts, a, acc => do
      let v ← load m a t
      loadList m ts (a + (← liftChecked (orFault t.size))) (acc.append v.slots)

/-- Load fields that lie one after the other and put them behind `acc`. -/
def loadFields (m : Memory) : List TyField → Int64 → Value → Access Value
  | [], _, acc => return acc
  | ⟨_, _, t⟩ :: fs, a, acc => do
      let v ← load m a t
      loadFields m fs (a + (← liftChecked (orFault t.size)))
        (acc.append v.slots)

end

-- ================================================================= storing

/-- Change the memory; what was written before an error stays written. -/
abbrev Storing := EStateM (Stop RunError) Memory

/-- An answer that does not touch the memory. -/
def answer {α : Type} : Access α → Storing α
  | .ok a => pure a
  | .error e => throw e

/-- An answer that does not touch the memory, or a fault. -/
def sure {α : Type} (a : Checked α) : Storing α := answer (liftChecked a)

mutual

/-- Store a value of a type. Slots beyond what the type takes are dropped; words
for which there are no slots stay. -/
def store (a : Int64) (t : Ty) (v : Value) : Storing Unit := do
  let m ← EStateM.get
  let n ← answer (m.extent a t (.storeBounds a t))
  match t with
  | .array .. =>
      let src ← sure (orFault v.slots.head?)
      let (start, _) ← sure (m.range a (a + n))
      let (source, count) ← sure (m.range src (src + n))
      EStateM.set (m.write start (m.read source count))
  | .tuple ts => storeList a ts v
  | .struct _ fs => storeFields a fs v
  | _ =>
      let (start, count) ← sure (m.range a (a + n))
      EStateM.set (m.write start (v.slots.take count))

/-- Store values of types that lie one after the other. A component that reaches
into spare slots is stored, and then the components are over: what is behind it
is a fault. -/
def storeList (a : Int64) : List Ty → Value → Storing Unit
  | [], _ => pure ()
  | t :: ts, v => do
      store a t (← sure (v.first t.slots))
      let rest ← sure (v.rest t.slots)
      storeList (a + (← sure (orFault t.size))) ts rest

/-- Store fields that lie one after the other. -/
def storeFields (a : Int64) : List TyField → Value → Storing Unit
  | [], _ => pure ()
  | ⟨_, _, t⟩ :: fs, v => do
      store a t (← sure (v.first t.slots))
      let rest ← sure (v.rest t.slots)
      storeFields (a + (← sure (orFault t.size))) fs rest

end

end Memory

end MirBackend.Interp
