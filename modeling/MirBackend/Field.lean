/-
Arithmetic modulo the prime 2^31 - 1.

An element is a 32-bit word; it is *canonical* when it is below the prime, and
every operation answers with a canonical word. Sums, differences and products
are formed in 64 bits before they are reduced. On canonical operands nothing
wraps there; on other words a difference may, and then the wrapped word is
what is reduced.
-/

namespace MirBackend

/-- The order of the field, 2^31 - 1. -/
def fieldOrder : UInt64 := 2147483647

/-- A word read as an element of the field of order 2^31 - 1. -/
structure Felt where
  word : UInt32
deriving DecidableEq, Repr

namespace Felt

/-- The element of a 64-bit word, reduced. -/
def reduce (x : UInt64) : Felt := ⟨(x % fieldOrder).toUInt32⟩

/-- The canonical representative of a signed integer. -/
def ofInt64 (x : Int64) : Felt :=
  let r := x % 2147483647
  ⟨(if r < 0 then r + 2147483647 else r).toUInt64.toUInt32⟩

/-- The word of a 32-bit integer as it stands, not reduced. -/
def ofWord (x : Int32) : Felt := ⟨x.toUInt32⟩

/-- The word as a 64-bit integer. -/
def toInt64 (a : Felt) : Int64 := a.word.toUInt64.toInt64

/-- The word as a 32-bit integer; a canonical one always fits. -/
def toInt32 (a : Felt) : Int32 := a.word.toInt32

def isZero (a : Felt) : Bool := a.word == 0

def lt (a b : Felt) : Bool := a.word < b.word

protected def add (a b : Felt) : Felt :=
  reduce (a.word.toUInt64 + b.word.toUInt64)

protected def sub (a b : Felt) : Felt :=
  reduce (a.word.toUInt64 + fieldOrder - b.word.toUInt64)

protected def mul (a b : Felt) : Felt :=
  reduce (a.word.toUInt64 * b.word.toUInt64)

protected def neg (a : Felt) : Felt := reduce (fieldOrder - a.word.toUInt64)

instance : Add Felt := ⟨Felt.add⟩
instance : Sub Felt := ⟨Felt.sub⟩
instance : Mul Felt := ⟨Felt.mul⟩
instance : Neg Felt := ⟨Felt.neg⟩

/-- Square and multiply from the low bit up, for at most `n` bits. -/
def powLoop : Nat → Felt → Felt → UInt64 → Felt
  | 0, acc, _, _ => acc
  | n + 1, acc, base, e =>
      if e = 0 then acc
      else powLoop n (if e &&& 1 = 0 then acc else acc * base)
        (base * base) (e >>> 1)

/-- The power to a 64-bit exponent. -/
def pow (a : Felt) (e : UInt64) : Felt := powLoop 64 ⟨1⟩ a e

/-- The inverse; the inverse of zero is zero. -/
def inv (a : Felt) : Felt := a.pow (fieldOrder - 2)

protected def div (a b : Felt) : Felt := a * b.inv

instance : Div Felt := ⟨Felt.div⟩

end Felt

end MirBackend
