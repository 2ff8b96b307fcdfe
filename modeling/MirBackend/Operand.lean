/-
Operands: what an instruction reads.

An operand is a value of the function or a literal written in place. Integer
and boolean literals are *immediates*: they have a slot value of their own.
`error` stands for a front-end recovery and `invalid` for an operand that was
never given; neither can be computed with.
-/
import MirBackend.Ty

namespace MirBackend

inductive Operand where
  | value (id : ValueId)
  | int (n : Int32)
  | bool (b : Bool)
  | unit
  | error
  | invalid
deriving DecidableEq, Repr, Inhabited

namespace Operand

/-- The value that the operand names. -/
def id? : Operand → Option ValueId
  | .value id => some id
  | _ => none

/-- The slot value of an integer or boolean literal. -/
def imm? : Operand → Option Int32
  | .int n => some n
  | .bool b => some (if b then 1 else 0)
  | _ => none

def isLiteral : Operand → Bool
  | .int _ | .bool _ | .unit => true
  | _ => false

/-- Whether the operand is the literal zero or `false`. -/
def isZero (v : Operand) : Bool := v.imm? == some 0

/-- The operand as the source language writes it. -/
def text : Operand → String
  | .value id => valueText id
  | .int n => toString n.toInt
  | .bool true => "true"
  | .bool false => "false"
  | .unit => "()"
  | .error => "<error>"
  | .invalid => "<invalid>"

/-- Operands with a comma and a blank between them. -/
def listText (vs : List Operand) : String := ", ".intercalate (vs.map text)

/-- The values named in a list of operands, in order and with repetition. -/
def ids (vs : List Operand) : List ValueId := vs.filterMap id?

end Operand

end MirBackend
