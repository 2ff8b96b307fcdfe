/-
The operators of the interpreter.

Field operators take one slot each and work modulo the field's order. A 32-bit
integer takes two slots, its low and its high sixteen bits; a literal is a
single slot. Truth values are one and zero.
-/
import MirBackend.Field
import MirBackend.Interp.Memory

namespace MirBackend.Interp

/-- The slot of a truth value. -/
def bit (b : Bool) : Int64 := if b then 1 else 0

/-- The slots of a field element. -/
def feltSlots (a : Felt) : Slots := [a.toInt64]

/-- The slots of a 32-bit integer. -/
def wordSlots (x : UInt32) : Slots :=
  [(x &&& 0xFFFF).toUInt64.toInt64, (x >>> 16).toUInt64.toInt64]

/-- The 32-bit integer of a value. -/
def wordOf : Slots → Checked UInt32
  | [] => .error .fault
  | [a] => .ok a.toUInt64.toUInt32
  | a :: b :: _ => .ok (a.toUInt64.toUInt32 ||| b.toUInt64.toUInt32 <<< 16)

def fieldOp (op : BinaryOp) (a b : Felt) : Access Slots :=
  match op with
  | .add => .ok (feltSlots (a + b))
  | .sub => .ok (feltSlots (a - b))
  | .mul => .ok (feltSlots (a * b))
  | .div =>
    if b.isZero then .error (.fail .divisionByZero) else .ok (feltSlots (a / b))
  | .eq => .ok [bit (a = b)]
  | .neq => .ok [bit (a ≠ b)]
  | .less => .ok [bit (a.lt b)]
  | .greater => .ok [bit (b.lt a)]
  | .lessEqual => .ok [bit (!b.lt a)]
  | .greaterEqual => .ok [bit (!a.lt b)]
  | .and => .ok [bit (!a.isZero && !b.isZero)]
  | .or => .ok [bit (!a.isZero || !b.isZero)]
  | _ => .error (.fail (.fieldOp op))

def wordOp (op : BinaryOp) (a b : UInt32) : Access Slots :=
  match op with
  | .u32Add => .ok (wordSlots (a + b))
  | .u32Sub => .ok (wordSlots (a - b))
  | .u32Mul => .ok (wordSlots (a * b))
  | .u32Div =>
    if b = 0 then .error (.fail .divisionByZero) else .ok (wordSlots (a / b))
  | .u32Eq => .ok [bit (a = b)]
  | .u32Neq => .ok [bit (a ≠ b)]
  | .u32Less => .ok [bit (a < b)]
  | .u32Greater => .ok [bit (b < a)]
  | .u32LessEqual => .ok [bit (a ≤ b)]
  | .u32GreaterEqual => .ok [bit (b ≤ a)]
  | .u32And => .ok (wordSlots (a &&& b))
  | .u32Or => .ok (wordSlots (a ||| b))
  | .u32Xor => .ok (wordSlots (a ^^^ b))
  | _ => .error (.fail (.wordOp op))

/-- The result of a binary operator. -/
def binaryOp (op : BinaryOp) (l r : Slots) : Access Slots :=
  if op.isU32 then do
    let a ← liftChecked (wordOf l)
    let b ← liftChecked (wordOf r)
    wordOp op a b
  else match l, r with
    | [a], [b] => fieldOp op (Felt.ofInt64 a) (Felt.ofInt64 b)
    | _, _ => .error (.fail (.notScalars op))

/-- The result of a unary operator on one slot. -/
def unaryOp (op : UnaryOp) (v : Int64) : Access Slots :=
  match op with
  | .not => .ok [bit (v = 0)]
  | .neg => .ok (feltSlots (-Felt.ofInt64 v))
  | .unassigned _ => .error (.fail (.unaryOp op))

end MirBackend.Interp
