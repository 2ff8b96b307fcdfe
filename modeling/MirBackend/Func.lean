/-
Basic blocks, functions and modules.

A function is a list of blocks, one of them the entry. A block keeps, beside
its instructions and terminator, the list of its predecessors; keeping that
list in step with the terminators is the work of the edge operations, not an
invariant of the type, and a place in the block list may be vacant while a
graph is under construction. Values are declared by number: `types` records
their types and `nextValue` is above every number declared, unless it wrapped.

A function keeps a journal of the edits of its predecessor lists, so that the
history of a graph can be told afterwards; nothing in the graph depends on it.

A module is a list of functions; a name stands for the last function that
carries it.
-/
import MirBackend.Instr
import Std.Data.ExtTreeMap

namespace MirBackend

structure Block where
  name : String
  instrs : List Instr := []
  term : Option Terminator := none
  preds : List BlockId := []
  /-- The instructions are final. -/
  filled : Bool := false
  /-- The predecessors are final. -/
  closed : Bool := false
deriving Repr, Inhabited

namespace Block

/-- Add a predecessor at the end unless it is listed already. -/
def addPred (p : BlockId) (b : Block) : Block :=
  if p ∈ b.preds then b else { b with preds := b.preds ++ [p] }

/-- Remove the first listing of a predecessor. -/
def removePred (p : BlockId) (b : Block) : Block :=
  { b with preds := b.preds.erase p }

def hasPred (b : Block) (p : BlockId) : Bool := p ∈ b.preds

/-- Add an instruction at the end. -/
def push (i : Instr) (b : Block) : Block := { b with instrs := b.instrs ++ [i] }

/-- The phis at the head of the block. -/
def leadingPhis (b : Block) : List Instr := b.instrs.takeWhile Instr.isPhi

/-- What follows the leading phis. -/
def body (b : Block) : List Instr := b.instrs.dropWhile Instr.isPhi

/-- How many phis stand at the head of the block. -/
def phiCount (b : Block) : Nat := b.leadingPhis.length

/-- Add a phi behind the leading ones. -/
def pushPhi (i : Instr) (b : Block) : Block :=
  { b with instrs := b.leadingPhis ++ i :: b.body }

def targets (b : Block) : List BlockId := targetsOf b.term

/-- The instructions, unless one of them is a hole. -/
def present (b : Block) : Checked (List Instr) := b.instrs.mapM Instr.present

end Block

-- =================================================================== edges

/-- An edge, by the numbers of its two blocks. -/
structure Edge where
  source : BlockId
  target : BlockId
deriving DecidableEq, Repr

/-- An edit of the predecessor lists of a function. -/
inductive EdgeEdit where
  /-- The source is listed among the predecessors of the target. -/
  | connect (edge : Edge)
  /-- The source is struck from the predecessors of the target. -/
  | disconnect (edge : Edge)
  /-- All lists are emptied. -/
  | clear
  /-- Only the blocks listed stay; the first becomes block zero, and so on. -/
  | keep (blocks : List Nat)
deriving DecidableEq, Repr

-- =============================================================== functions

structure Func where
  name : String
  blocks : List (Option Block) := []
  entry : BlockId := 0
  params : List ValueId := []
  returns : List Ty := []
  types : Std.ExtTreeMap ValueId Ty := ∅
  nextValue : ValueId := 0
  /-- The edits of predecessor lists, the latest first. -/
  journal : List EdgeEdit := []

namespace Func

/-- A function with one empty block, its entry. -/
def named (name : String) : Func :=
  { name, blocks := [some { name := "entry" }] }

instance : Inhabited Func := ⟨named ""⟩

/-- Whether the number is that of a place in the block list. -/
def hasBlock (f : Func) (b : BlockId) : Bool := 0 ≤ b ∧ b < f.blocks.length

/-- The block with the number, if there is one. -/
def block? (f : Func) : BlockId → Option Block
  | .ofNat i => (f.blocks[i]?).join
  | .negSucc _ => none

/-- The block with the number, or a fault. -/
def block (f : Func) (b : BlockId) : Checked Block := orFault (f.block? b)

/-- The blocks in order, or a fault if a place is vacant. -/
def present (f : Func) : Checked (List Block) := f.blocks.mapM orFault

/-- Change the block with the number; nothing changes if there is none. -/
def modifyBlock (f : Func) (b : BlockId) (g : Block → Block) : Func :=
  match b with
  | .ofNat i => { f with blocks := f.blocks.modify i (·.map g) }
  | .negSucc _ => f

/-- Change the block with the number, or fault. -/
def updateBlock (f : Func) (b : BlockId) (g : Block → Block) :
    Changing Func Func := do
  let _ ← given f (f.block b)
  return f.modifyBlock b g

/-- Note an edit in the journal. -/
def record (f : Func) (e : EdgeEdit) : Func :=
  { f with journal := e :: f.journal }

/-- Change every block. -/
def mapBlocks (f : Func) (g : Block → Block) : Func :=
  { f with blocks := f.blocks.map (·.map g) }

/-- Keep the instructions that a test accepts. -/
def keepInstrs (f : Func) (keep : Instr → Bool) : Func :=
  f.mapBlocks fun b => { b with instrs := b.instrs.filter keep }

/-- Whether a test rejects some instruction. -/
def anyDropped (f : Func) (keep : Instr → Bool) : Bool :=
  f.blocks.any fun b => b.any fun b => b.instrs.any (!keep ·)

/-- Add a block at the end; its number is the old number of blocks. -/
def newBlock (f : Func) (name : String) : BlockId × Func :=
  (f.blocks.length, { f with blocks := f.blocks ++ [some { name }] })

-- ------------------------------------------------------------------ values

/-- Take the next value number. -/
def newValue (f : Func) : ValueId × Func :=
  (f.nextValue, { f with nextValue := f.nextValue + 1 })

/-- Take the next value number and record its type. -/
def newTyped (f : Func) (t : Ty) : ValueId × Func :=
  (f.nextValue,
  { f with nextValue := f.nextValue + 1, types := f.types.insert f.nextValue t })

/-- Announce a value numbered elsewhere, so that new numbers stay above it. -/
def announce (f : Func) (id : ValueId) : Func :=
  if f.nextValue ≤ id then { f with nextValue := id + 1 } else f

/-- Announce a value numbered elsewhere and record its type unless it is
missing. -/
def declare (f : Func) (id : ValueId) (t : Ty) : Func :=
  let f := f.announce id
  if t.isMissing then f else { f with types := f.types.insert id t }

/-- Take the next value number as a further parameter. -/
def newParam (f : Func) (t : Ty) : ValueId × Func :=
  let (id, f) := f.newTyped t
  (id, { f with params := f.params ++ [id] })

/-- The recorded type of a value; unknown if there is none. -/
def typeOf (f : Func) (id : ValueId) : Ty := f.types.getD id .unknown

/-- The type of an operand. -/
def operandType (f : Func) : Operand → Ty
  | .value id => f.typeOf id
  | .int _ => .felt
  | .bool _ => .bool
  | .unit => .unit
  | .error | .invalid => .unknown

def paramTypes (f : Func) : List Ty := f.params.map f.typeOf

def signature (f : Func) : Signature := ⟨f.paramTypes, f.returns⟩

-- ------------------------------------------------------------------ counts

/-- How many instructions the function has. -/
def instrCount (f : Func) : Checked Nat := do
  return ((← f.present).map (·.instrs.length)).foldr (· + ·) 0

/-- How many phis the function has, wherever they stand. -/
def phiTotal (f : Func) : Checked Nat := do
  return ((← f.present).map (·.instrs.countP Instr.isPhi)).foldr (· + ·) 0

/-- Every read of a value by the instructions and the terminator of a block. -/
def blockReads (b : Block) : Checked (List ValueId) := do
  return (← b.present).flatMap Instr.uses ++ usesOf b.term

/-- Every read of a value by an instruction or a terminator; a value occurs once
per read. -/
def reads (f : Func) : Checked (List ValueId) := do
  return (← (← f.present).mapM blockReads).flatten

/-- Whether an instruction makes, reads or moves an address. -/
def usesMemory (f : Func) : Checked Bool := anyBlock f.blocks
where
  anyBlock : List (Option Block) → Checked Bool
    | [] => .ok false
    | none :: _ => .error .fault
    | some b :: bs =>
      if b.instrs.any Instr.touchesMemory then .ok true else anyBlock bs

/-- The number of the first block with the name. -/
def blockNamed (f : Func) (name : String) : Checked BlockId := go 0 f.blocks
where
  go (i : Nat) : List (Option Block) → Checked BlockId
    | [] => .error (.noBlockNamed name)
    | none :: _ => .error .fault
    | some b :: bs => if b.name == name then .ok i else go (i + 1) bs

end Func

-- ================================================================= modules

structure Module where
  functions : List Func := []
deriving Inhabited

namespace Module

/-- Add a function at the end; its number is the old number of functions. -/
def add (m : Module) (f : Func) : FuncId × Module :=
  (m.functions.length, ⟨m.functions ++ [f]⟩)

/-- The function with the number, if there is one. -/
def func? (m : Module) : FuncId → Option Func
  | .ofNat i => m.functions[i]?
  | .negSucc _ => none

/-- The number of the last function with the name. -/
def lookup (m : Module) (name : String) : Option FuncId :=
  (m.functions.zipIdx.reverse.find? (·.1.name == name)).map (·.2)

/-- Put another function in the place of one. -/
def setFunc (m : Module) (i : Nat) (f : Func) : Module := ⟨m.functions.set i f⟩

end Module

end MirBackend
