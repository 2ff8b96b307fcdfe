/-
The operators of unary and binary instructions.

Operators are numbered by a byte. The numbers past the named ones belong to no
operator: they can stand in an instruction, print as unknown and are rejected
by whatever would have to compute them. All of them count as 32-bit operators,
because those come last in the numbering.
-/
import MirBackend.Ty

namespace MirBackend

inductive UnaryOp where
  | not
  | neg
  | unassigned (code : UInt8)
deriving DecidableEq, Repr

inductive BinaryOp where
  | add | sub | mul | div
  | eq | neq | less | greater | lessEqual | greaterEqual
  | and | or
  | u32Add | u32Sub | u32Mul | u32Div
  | u32Eq | u32Neq | u32Less | u32Greater | u32LessEqual | u32GreaterEqual
  | u32And | u32Or | u32Xor
  | unassigned (code : UInt8)
deriving DecidableEq, Repr

namespace UnaryOp

/-- The named operators by number. -/
def all : List UnaryOp := [.not, .neg]

def text : UnaryOp → String
  | .not => "not"
  | .neg => "neg"
  | .unassigned _ => "unop?"

def ofCode (n : UInt8) : UnaryOp := all.getD n.toNat (.unassigned n)

/-- The operator with the name. -/
def ofName? (s : String) : Option UnaryOp := all.find? (·.text == s)

/-- The number of a named operator. -/
def code : UnaryOp → Nat
  | .unassigned n => n.toNat
  | op => all.idxOf op

end UnaryOp

namespace BinaryOp

/-- The named operators by number. -/
def all : List BinaryOp :=
  [.add, .sub, .mul, .div, .eq, .neq, .less, .greater, .lessEqual,
   .greaterEqual, .and, .or,
   .u32Add, .u32Sub, .u32Mul, .u32Div, .u32Eq, .u32Neq, .u32Less,
     .u32Greater, .u32LessEqual,
   .u32GreaterEqual, .u32And, .u32Or, .u32Xor]

def text : BinaryOp → String
  | .add => "add"
  | .sub => "sub"
  | .mul => "mul"
  | .div => "div"
  | .eq => "eq"
  | .neq => "neq"
  | .less => "lt"
  | .greater => "gt"
  | .lessEqual => "le"
  | .greaterEqual => "ge"
  | .and => "and"
  | .or => "or"
  | .u32Add => "u32_add"
  | .u32Sub => "u32_sub"
  | .u32Mul => "u32_mul"
  | .u32Div => "u32_div"
  | .u32Eq => "u32_eq"
  | .u32Neq => "u32_neq"
  | .u32Less => "u32_lt"
  | .u32Greater => "u32_gt"
  | .u32LessEqual => "u32_le"
  | .u32GreaterEqual => "u32_ge"
  | .u32And => "u32_and"
  | .u32Or => "u32_or"
  | .u32Xor => "u32_xor"
  | .unassigned _ => "binop?"

def ofCode (n : UInt8) : BinaryOp := all.getD n.toNat (.unassigned n)

/-- The operator with the name. -/
def ofName? (s : String) : Option BinaryOp := all.find? (·.text == s)

/-- The number of a named operator. -/
def code : BinaryOp → Nat
  | .unassigned n => n.toNat
  | op => all.idxOf op

def isComparison : BinaryOp → Bool
  | .eq | .neq | .less | .greater | .lessEqual | .greaterEqual
  | .u32Eq | .u32Neq | .u32Less | .u32Greater | .u32LessEqual
  | .u32GreaterEqual => true
  | _ => false

/-- Whether the operator works on 32-bit integers. -/
def isU32 : BinaryOp → Bool
  | .add | .sub | .mul | .div | .eq | .neq | .less | .greater | .lessEqual | .greaterEqual
  | .and | .or => false
  | _ => true

/-- The type of the result on operands of type `t`. -/
def resultType (op : BinaryOp) (t : Ty) : Ty :=
  if op.isComparison || op == .and || op == .or then .bool
  else if op.isU32 then .u32
  else t

end BinaryOp

end MirBackend
