/-
Values at run time.

A value is a run of slots. One that was put together piece by piece may not
fill its storage: spare slots lie behind it. They are zero. Only taking a
component out of a value, or storing one by its components, reaches into them,
when the value has fewer slots than its type says.
-/
import MirBackend.Halt
import MirBackend.Storage

namespace MirBackend.Interp

/-- Slots side by side. -/
abbrev Slots := List Int64

structure Value where
  slots : Slots
  /-- How many spare slots lie behind. -/
  spare : Nat := 0
deriving DecidableEq, Repr

instance : Inhabited Value := ⟨⟨[], 0⟩⟩

namespace Value

/-- The storage of a value. -/
def room (v : Value) : Nat := v.slots.length + v.spare

/-- A value with slots put behind its own. -/
def append (v : Value) (xs : Slots) : Value :=
  let n := v.slots.length + xs.length
  ⟨v.slots ++ xs, Storage.regrown v.room n - n⟩

/-- A value in storage of its own. -/
def copyOf (xs : Slots) : Value := append ⟨[], 0⟩ xs

/-- All slots of the storage of a value. -/
def stored (v : Value) : Slots := v.slots ++ List.replicate v.spare 0

/-- `n` slots of a value from an offset on, spare ones included; a fault if
there are not as many. -/
def part (v : Value) (off n : Int64) : Checked Value :=
  if 0 ≤ off ∧ 0 ≤ n ∧ off.toInt + n.toInt ≤ v.room then
    .ok (copyOf ((v.stored.drop off.toInt.toNat).take n.toInt.toNat))
  else .error .fault

/-- The first `n` slots of a value, spare ones included; a fault if there are
not as many. -/
def first (v : Value) (n : Int64) : Checked Value :=
  if 0 ≤ n ∧ n.toInt ≤ v.room then .ok ⟨v.stored.take n.toInt.toNat,
    0⟩ else .error .fault

/-- A value without its first `n` slots; a fault if there are not as many. Spare
slots are none of its slots. -/
def rest (v : Value) (n : Int64) : Checked Value :=
  if 0 ≤ n
    ∧ n.toInt
    ≤ v.slots.length then .ok { v with slots := v.slots.drop n.toInt.toNat }
  else .error .fault

/-- A value whose slots from an offset on are overwritten by others, as far as
they reach. -/
def overwrite (v : Value) (off : Int64) (xs : Slots) : Checked Value :=
  if 0 ≤ off ∧ off.toInt ≤ v.slots.length then
    let i := off.toInt.toNat
    let xs := xs.take (v.slots.length - i)
    .ok { v with slots := v.slots.take i ++ xs ++ v.slots.drop (i + xs.length) }
  else .error .fault

end Value

end MirBackend.Interp
