/-
Instructions and terminators.

An instruction defines values (`dests`) and reads values (`uses`, in order and
with repetition); the two read-offs are what every analysis is built on. A
*missing* instruction is a hole in a block: nothing can be read off it, and
whoever tries faults.

A terminator ends a block. `Terminator.targets` lists its successors, each
once.
-/
import MirBackend.Operand
import MirBackend.Operator

namespace MirBackend

/-- One source of a phi: the value that arrives from a predecessor. -/
structure PhiSource where
  block : BlockId
  value : Operand
deriving DecidableEq, Repr, Inhabited

/-- What a call passes and receives. -/
structure Signature where
  params : List Ty := []
  returns : List Ty := []
deriving Repr, Inhabited

inductive Instr where
  /-- A hole. -/
  | missing
  | assign (dest : ValueId) (source : Operand) (type : Ty)
  | unary (op : UnaryOp) (dest : ValueId) (source : Operand)
  | binary (op : BinaryOp) (dest : ValueId) (left right : Operand)
  | call (dests : List ValueId) (callee : FuncId)
    (args : List Operand) (sig : Signature)
  | load (dest : ValueId) (type : Ty) (address : Operand)
  | store (address value : Operand) (type : Ty)
  /-- Reserve memory for a value of the type; the destination is its address. -/
  | frameAlloc (dest : ValueId) (type : Ty)
  | addressOf (dest : ValueId) (operand : ValueId)
  /-- The base address advanced by some slots. -/
  | elementPtr (dest : ValueId) (base offset : Operand)
  | cast (dest : ValueId) (source : Operand) (fromType toType : Ty)
  | debug (message : List UInt8) (values : List Operand)
  | nop
  | phi (dest : ValueId) (type : Ty) (sources : List PhiSource)
  | makeTuple (dest : ValueId) (elems : List Operand) (types : List Ty)
  | extractTuple (dest : ValueId) (tuple : Operand) (index : Int) (type : Ty)
  | makeStruct (dest : ValueId) (fields :
      List (String × Operand)) (type : Record)
  | extractField (dest : ValueId) (record : Operand)
    (field : String) (type : Ty)
  | insertField (dest : ValueId) (record : Operand)
      (field : String) (value : Operand)
      (type : Record)
  | insertTuple (dest : ValueId) (tuple : Operand)
      (index : Int) (value : Operand)
      (types : List Ty)
  | makeArray (dest : ValueId) (elems : List Operand) (elemType : Ty)
deriving Repr, Inhabited

namespace Instr

/-- The values an instruction defines. -/
def dests : Instr → List ValueId
  | .call ds _ _ _ => ds
  | .assign d .. | .unary _ d _ | .binary _ d .. | .load d .. | .frameAlloc d
      _ | .addressOf d _
  | .elementPtr d .. | .cast d .. | .phi d .. | .makeTuple d
      .. | .extractTuple d ..
  | .makeStruct d .. | .extractField d .. | .insertField d
      .. | .insertTuple d ..
  | .makeArray d .. => [d]
  | .missing | .store .. | .debug .. | .nop => []

/-- The operands an instruction reads, in order. -/
def operands : Instr → List Operand
  | .assign _ v _ | .unary _ _ v | .load _ _ v | .cast _ v
      _ _ | .extractTuple _ v _ _
  | .extractField _ v _ _ => [v]
  | .binary _ _ l r | .elementPtr _ l r | .store l r _ => [l, r]
  | .insertTuple _ a _ v _ | .insertField _ a _ v _ => [a, v]
  | .call _ _ vs _ | .debug _ vs | .makeTuple _ vs _ | .makeArray _ vs _ => vs
  | .addressOf _ v => [.value v]
  | .phi _ _ ss => ss.map (·.value)
  | .makeStruct _ fs _ => fs.map (·.2)
  | .missing | .frameAlloc .. | .nop => []

/-- The values an instruction reads, in order and with repetition. -/
def uses (i : Instr) : List ValueId := Operand.ids i.operands

def isPhi : Instr → Bool
  | .phi .. => true
  | _ => false

def isNop : Instr → Bool
  | .nop => true
  | _ => false

def isMissing : Instr → Bool
  | .missing => true
  | _ => false

/-- Whether the instruction must stay even if nothing reads its result. -/
def hasSideEffects : Instr → Bool
  | .call .. | .store .. | .frameAlloc .. | .debug .. => true
  | _ => false

/-- Whether the instruction may go once its results are unused. -/
def isPure (i : Instr) : Bool := !i.hasSideEffects

/-- Whether the instruction makes, reads or moves an address. -/
def touchesMemory : Instr → Bool
  | .frameAlloc .. | .load .. | .store .. | .addressOf .. | .elementPtr .. =>
    true
  | _ => false

/-- The instruction, unless it is a hole. -/
def present : Instr → Checked Instr
  | .missing => .error .fault
  | i => .ok i

end Instr

inductive Terminator where
  | jump (target : BlockId)
  /-- To the first target when the condition is not zero, else to the second. -/
  | branch (cond : Operand) (onTrue onFalse : BlockId)
  | branchCmp (op : BinaryOp) (left right : Operand) (onTrue onFalse : BlockId)
  | ret (values : List Operand)
  | unreachable
deriving DecidableEq, Repr, Inhabited

namespace Terminator

/-- The successors, each once, in the order they are written. -/
def targets : Terminator → List BlockId
  | .jump t => [t]
  | .branch _ t e | .branchCmp _ _ _ t e => if t = e then [t] else [t, e]
  | .ret _ | .unreachable => []

/-- Every target changed by `m`. -/
def mapTargets (m : BlockId → BlockId) : Terminator → Terminator
  | .jump t => .jump (m t)
  | .branch c t e => .branch c (m t) (m e)
  | .branchCmp op l r t e => .branchCmp op l r (m t) (m e)
  | t => t

/-- Edges to `old` redirected to `new`. -/
def redirect (old new : BlockId) (t : Terminator) : Terminator :=
  t.mapTargets fun b => if b = old then new else b

/-- The operands a terminator reads, in order. -/
def operands : Terminator → List Operand
  | .branch c _ _ => [c]
  | .branchCmp _ l r _ _ => [l, r]
  | .ret vs => vs
  | .jump _ | .unreachable => []

/-- The values a terminator reads, in order and with repetition. -/
def uses (t : Terminator) : List ValueId := Operand.ids t.operands

end Terminator

/-- The successors named by a terminator that may not be there yet. -/
def targetsOf : Option Terminator → List BlockId
  | some t => t.targets
  | none => []

/-- The values read by a terminator that may not be there yet. -/
def usesOf : Option Terminator → List ValueId
  | some t => t.uses
  | none => []

end MirBackend
