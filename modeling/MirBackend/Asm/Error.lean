/-
What can go wrong in generating assembly.

Causes fall into kinds, and the kind begins the text of an error. Errors are
reported under the headings of the block, instruction and operand where they
arose.
-/
import MirBackend.Layout

namespace MirBackend.Asm

inductive ErrorKind where
  | invalidMir
  | missingTarget
  | unsupported
  | layout
  | unresolvedLabel
  | unassigned (code : UInt8)
deriving DecidableEq, Repr

namespace ErrorKind

def text : ErrorKind → String
  | .invalidMir => "invalid mir"
  | .missingTarget => "missing target"
  | .unsupported => "unsupported instruction"
  | .layout => "layout error"
  | .unresolvedLabel => "unresolved label"
  | .unassigned _ => "codegen error"

/-- The kinds by number; zero belongs to none. -/
def ofCode (n : UInt8) : ErrorKind :=
  ([.unassigned 0, .invalidMir, .missingTarget, .unsupported, .layout,
    .unresolvedLabel]).getD
    n.toNat (.unassigned n)

/-- The text of an error of a kind with a detail, which may be empty. -/
def message (k : ErrorKind) (detail : String) : String :=
  if detail.isEmpty then k.text else k.text ++ ": " ++ detail

end ErrorKind

/-- What is wrong. -/
inductive Cause where
  | divisionByZero
  | phisLeft (count : Nat)
  | unitScalar
  | badOperand (v : Operand)
  | wideLiteral (v : Operand) (slots : Int64)
  | phi (v : ValueId)
  | notTuple (v : Operand)
  | tupleIndex (index : Int)
  | noField (name : String) (type : Ty)
  | notStruct (v : Operand)
  | aggregateLiteral (v : Operand)
  | argCount (callee : String) (given wanted : Nat)
  | resultCount (callee : String) (given wanted : Nat)
  | loadLiteral (v : Operand)
  | storeLiteral (v : Operand)
  | noTerminator
  | returnCount (given wanted : Nat)
  | duplicateLabel (name : String)
  | undefinedCallee (callee : FuncId)
  | undefinedJump (target : BlockId)
  | undefinedBranch (target : BlockId)
  | addressAsValue (v : ValueId)
  | cast (fromType toType : Ty)
  | dynamicAddress (v : ValueId)
  | unaryOp (op : UnaryOp)
  | wordOp (op : BinaryOp)
  | fieldOp (op : BinaryOp)
  | inlineArrays (type : Ty)
  | runtimeStore (v : ValueId)
  | dynamicOffset (v : Operand)
  | arrayOf (type : Ty)
  | arrayElem (index : Nat) (v : Operand)
  | branchOp (op : BinaryOp)
  | layout (error : LayoutError)
  | frameTooLarge (slots : Int64)
  | unresolved (label : String) (address : Nat)
deriving Repr

namespace Cause

def kind : Cause → ErrorKind
  | .divisionByZero | .phisLeft _ | .unitScalar | .badOperand
      _ | .wideLiteral .. | .phi _
  | .notTuple _ | .tupleIndex _ | .noField .. | .notStruct
      _ | .aggregateLiteral _ | .argCount ..
  | .resultCount .. | .loadLiteral _ | .storeLiteral
      _ | .noTerminator | .returnCount ..
  | .duplicateLabel _ => .invalidMir
  | .undefinedCallee _ | .undefinedJump _ | .undefinedBranch _ => .missingTarget
  | .addressAsValue _ | .cast .. | .dynamicAddress _ | .unaryOp
      _ | .wordOp _ | .fieldOp _
  | .inlineArrays _ | .runtimeStore _ | .dynamicOffset
      _ | .arrayOf _ | .arrayElem ..
  | .branchOp _ => .unsupported
  | .layout _ | .frameTooLarge _ => .layout
  | .unresolved .. => .unresolvedLabel

def detail : Cause → String
  | .divisionByZero => "division by zero"
  | .phisLeft n => toString n ++ " phis left"
  | .unitScalar => "unit used as a scalar"
  | .badOperand v => v.text ++ " operand"
  | .wideLiteral v n => "literal " ++ v.text ++ " for "
      ++ toString n.toInt ++ " slots"
  | .phi v => "phi " ++ valueText v
  | .notTuple v => "extract from non-tuple " ++ v.text
  | .tupleIndex i => "tuple index " ++ toString i ++ " out of range"
  | .noField n t => "no field " ++ n ++ " in " ++ t.text
  | .notStruct v => "extract field from non-struct " ++ v.text
  | .aggregateLiteral v => "aggregate literal " ++ v.text
  | .argCount c given wanted =>
      "call " ++ c ++ ": " ++ toString given ++ " args, want "
          ++ toString wanted
  | .resultCount c given wanted =>
      "call " ++ c ++ ": " ++ toString given ++ " results, want "
          ++ toString wanted
  | .loadLiteral v => "load from literal " ++ v.text
  | .storeLiteral v => "store to literal " ++ v.text
  | .noTerminator => "no terminator"
  | .returnCount given wanted =>
      "return " ++ toString given ++ " values, want " ++ toString wanted
  | .duplicateLabel n => "duplicate label " ++ n
  | .undefinedCallee c => "call to undefined function #" ++ toString c
  | .undefinedJump b => "jump to undefined block " ++ blockText b
  | .undefinedBranch b => "branch to undefined block " ++ blockText b
  | .addressAsValue v => "frame address " ++ valueText v ++ " used as a value"
  | .cast a b => "cast " ++ a.text ++ " to " ++ b.text
  | .dynamicAddress v => "address " ++ valueText v ++ " is not static"
  | .unaryOp op => "unary " ++ op.text
  | .wordOp op => op.text
  | .fieldOp op => "felt " ++ op.text
  | .inlineArrays t => "memory access of " ++ t.text ++ " with inline arrays"
  | .runtimeStore v => "store through runtime pointer " ++ valueText v
  | .dynamicOffset v => "dynamic offset " ++ v.text ++ " into frame memory"
  | .arrayOf t => "array of " ++ t.text
  | .arrayElem i v => "array element " ++ toString i
      ++ " is not a literal: " ++ v.text
  | .branchOp op => "branch on " ++ op.text
  | .layout e => e.message
  | .frameTooLarge n =>
      "frame of " ++ toString n.toInt ++ " slots exceeds "
          ++ toString Layout.maxFrame.toInt
  | .unresolved l a => l ++ " at pc " ++ toString a

end Cause

/-- A cause under the headings of where it arose. -/
inductive CodegenError where
  | cause (c : Cause)
  | within (heading : String) (error : CodegenError)
deriving Repr

namespace CodegenError

def kind : CodegenError → ErrorKind
  | .cause c => c.kind
  | .within _ e => e.kind

def message : CodegenError → String
  | .cause c => c.kind.message c.detail
  | .within h e => underHeading h e.message

end CodegenError

end MirBackend.Asm
