/-
Why the interpretation of a function stops without a result.

Errors are reported under the headings of the function, block and instruction
where they arose, through every call on the way.
-/
import MirBackend.Instr

namespace MirBackend.Interp

inductive RunError where
  | stepLimit
  | noFunction (name : String)
  | argCount (given wanted : Nat)
  | undefinedBlock (block : BlockId)
  | noSource (phi : ValueId) (prev cur : BlockId)
  | undefinedValue (value : ValueId)
  | badOperand (v : Operand)
  | notScalar (v : Operand) (slots : Nat)
  | unaryOp (op : UnaryOp)
  | notScalars (op : BinaryOp)
  | fieldOp (op : BinaryOp)
  | wordOp (op : BinaryOp)
  | divisionByZero
  | undefinedCallee (callee : FuncId)
  | resultCount (callee : String) (given wanted : Nat)
  | loadBounds (address : Int64) (type : Ty)
  | storeBounds (address : Int64) (type : Ty)
  | latePhi (value : ValueId)
  | noField (name : String)
  | notTuple
  | notStruct
  | tupleIndex (index : Int)
  | hole
  | unreachable
  | noTerminator
  | within (heading : String) (error : RunError)
deriving Repr

namespace RunError

/-- What happened, without the headings. -/
def cause : RunError → String
  | .stepLimit => "step limit exceeded"
  | .noFunction n => "no function " ++ n
  | .argCount given wanted =>
    toString given ++ " args, want " ++ toString wanted
  | .undefinedBlock b => "jump to undefined block " ++ blockText b
  | .noSource d p c =>
      "phi " ++ valueText d ++ ": no source for edge " ++ blockText p
          ++ " -> " ++ blockText c
  | .undefinedValue v => "read of undefined value " ++ valueText v
  | .badOperand v => "unsupported value " ++ v.text
  | .notScalar v n =>
      "value " ++ v.text ++ ": scalar expected, got " ++ toString n ++ " slots"
  | .unaryOp op => "unsupported unary op " ++ op.text
  | .notScalars op => op.text ++ ": scalar operands expected"
  | .fieldOp op => "unsupported binary op " ++ op.text
  | .wordOp op => "unsupported u32 op " ++ op.text
  | .divisionByZero => "division by zero"
  | .undefinedCallee c => "call to undefined function #" ++ toString c
  | .resultCount c given wanted =>
      "call " ++ c ++ ": " ++ toString given ++ " results, want "
          ++ toString wanted
  | .loadBounds a t => "load " ++ toString a.toInt ++ " of " ++ t.text
      ++ " out of bounds"
  | .storeBounds a t => "store " ++ toString a.toInt ++ " of " ++ t.text
      ++ " out of bounds"
  | .latePhi d => "phi " ++ valueText d ++ " after non-phi instruction"
  | .noField n => "no field " ++ n
  | .notTuple => "extract from non-tuple"
  | .notStruct => "field of non-struct"
  | .tupleIndex i => "tuple index " ++ toString i ++ " out of range"
  | .hole => "unsupported instruction <nil>"
  | .unreachable => "unreachable executed"
  | .noTerminator => "no terminator"
  | .within _ e => e.cause

/-- The headings, each with its colon, put behind `acc`; an empty one adds
nothing. -/
def headings (acc : String) : RunError → String
  | .within h e => headings (if h.isEmpty then acc else acc ++ h ++ ": ") e
  | _ => acc

def message (e : RunError) : String := e.headings "" ++ e.cause

/-- Whether the bound on steps is what stopped the run. -/
def isStepLimit : RunError → Bool
  | .stepLimit => true
  | .within _ e => e.isStepLimit
  | _ => false

end RunError

end MirBackend.Interp
