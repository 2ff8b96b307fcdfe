/-
Collecting the code and data of one function.

A builder holds instructions whose labels are not resolved, data words, and
the positions of labels among them. No emitted instruction reads a slot that
it writes, nor the same slot twice: operands in the way are copied to a fresh
slot above the frame first. Immediates are folded, moved to the right of a
commutative operation, or stored in a fresh slot.

Fresh label names count upwards and skip the names that are taken; the names
taken are shared by the builders of a module.
-/
import MirBackend.Asm.Error
import MirBackend.Asm.Program
import MirBackend.Field
import Std.Data.ExtTreeSet

namespace MirBackend.Asm

/-- A label at a position of the code or of the data. -/
structure LabelDef where
  name : String
  inData : Bool := false
  position : Nat
deriving DecidableEq, Repr

structure Builder where
  func : String
  layout : Option Layout := none
  code : List Insn := []
  data : List Int32 := []
  labels : List LabelDef := []
  /-- The slots of the parameters. -/
  args : SlotCounts := none
  /-- The slots of the results. -/
  returns : SlotCounts := none
  /-- Label names in use; names are not compared if there is no such set. -/
  taken : Option (Std.ExtTreeSet String) := none
  /-- The number of the next fresh label. -/
  counter : Nat := 0

instance : Inhabited Builder := ⟨{ func := "" }⟩

/-- A selected operand of one slot. -/
inductive Val where
  | slot (off : Int32)
  | const (n : Int32)
deriving DecidableEq, Repr, Inhabited

namespace Val

/-- A constant reduced to the field. -/
def ofInt (n : Int32) : Val := .const (Felt.ofInt64 n.toInt64).toInt32

def isConst : Val → Bool
  | .const _ => true
  | .slot _ => false

end Val

/-- Steps of emission; what was emitted before an error stays. -/
abbrev Emit := EStateM (Stop CodegenError) Builder

/-- Stop with an error. -/
def failWith {α : Type} (c : Cause) : Emit α := throw (.fail (.cause c))

/-- Halt unless something is there. -/
def need {α : Type} : Option α → Emit α
  | some a => pure a
  | none => throw (.halt .fault)

/-- Report errors under a heading. -/
def under {α : Type} (heading : String) (m : Emit α) : Emit α := fun b =>
  match m b with
  | .ok a b => .ok a b
  | .error (.fail e) b => .error (.fail (.within heading e)) b
  | .error (.halt h) b => .error (.halt h) b

/-- An answer or a layout error. -/
def fromLayout {α : Type} : Except LayoutError α → Emit α
  | .ok a => pure a
  | .error e => failWith (.layout e)

namespace Builder

-- ==================================================================== code

def emit (x : Insn) : Emit Unit :=
  modify fun b => { b with code := b.code ++ [x] }

/-- Define a label at the next instruction. -/
def label (name : String) : Emit Unit := modify fun b =>
  { b with labels := b.labels ++ [⟨name, false, b.code.length⟩] }

/-- Define a label at the next data word. -/
def dataLabel (name : String) : Emit Unit := modify fun b =>
  { b with labels := b.labels ++ [⟨name, true, b.data.length⟩] }

def pushData (vs : List Int32) : Emit Unit :=
  modify fun b => { b with data := b.data ++ vs }

/-- Take a label name; whether it was free. -/
def claim (name : String) : Emit Bool := fun b =>
  match b.taken with
  | none => .ok true b
  | some names =>
      if names.contains name then .ok false b
      else .ok true { b with taken := some (names.insert name) }

/-- Try fresh names with ascending numbers, at most `fuel` times. -/
def freshLabel (stem : String) : Nat → Emit String
  | 0 => return (← get).func ++ "." ++ stem ++ toString (← get).counter
  | fuel + 1 => do
      let b ← get
      let name := b.func ++ "." ++ stem ++ toString b.counter
      set { b with counter := b.counter + 1 }
      if ← claim name then return name else freshLabel stem fuel

/-- A fresh label name of the function: one more try than there are names taken
succeeds. -/
def newLabel (stem : String) : Emit String := do
  let tries := match (← get).taken with
    | some names => names.size
    | none => 0
  freshLabel stem (tries + 1)

/-- A fresh slot above all values of the frame. -/
def temp : Emit Int32 := do
  let b ← get
  let (off, l) := (← need b.layout).reserve 1
  set { b with layout := some l }
  return off

/-- Grow the frame by some slots; where they start. -/
def reserve (n : Int64) : Emit Int32 := do
  let b ← get
  let (off, l) := (← need b.layout).reserve n
  set { b with layout := some l }
  return off

-- =================================================================== moves

def storeImm (imm : Imm) (dst : Int32) (comment : String) : Emit Unit :=
  emit { opcode := .storeImm, imm, off2 := dst, comment }

/-- Store a number. -/
def storeLit (n : Int32) (dst : Int32) : Emit Unit :=
  storeImm (.literal n) dst ""

/-- Copy one slot; nothing is needed to copy it onto itself. -/
def copy (src dst : Int32) : Emit Unit :=
  if src = dst then pure () else emit
    { opcode := .storeDerefFp, off0 := src, off2 := dst }

/-- Copy `n` slots in ascending order. -/
def copyRun (src dst : Int32) : Nat → Emit Unit
  | 0 => pure ()
  | n + 1 => do
      copy src dst
      copyRun (src + 1) (dst + 1) n

/-- Copy slots; the count is cut to 32 bits and a negative one copies none. -/
def copySlots (src dst : Int32) (n : Int64) : Emit Unit :=
  copyRun src dst n.toInt32.toInt.toNat

def move (v : Val) (dst : Int32) : Emit Unit :=
  match v with
  | .const n => storeLit n dst
  | .slot off => copy off dst

/-- Copy a slot to a fresh one. -/
def toTemp (off : Int32) : Emit Int32 := do
  let t ← temp
  copy off t
  return t

-- ============================================================== arithmetic

/-- A field operation and the instructions that do it. -/
structure Arith where
  fpFp : Opcode
  fpImm : Opcode
  commutes : Bool
  divides : Bool
  fold : Felt → Felt → Felt

def arithAdd : Arith := ⟨.storeAddFpFp, .storeAddFpImm, true, false, (· + ·)⟩
def arithSub : Arith := ⟨.storeSubFpFp, .storeSubFpImm, false, false, (· - ·)⟩
def arithMul : Arith := ⟨.storeMulFpFp, .storeMulFpImm, true, false, (· * ·)⟩
def arithDiv : Arith := ⟨.storeDivFpFp, .storeDivFpImm, false, true, (· / ·)⟩

/-- Compute from a slot and a constant. -/
def arithSlotConst (op : Arith) (l : Int32) (n : Int32)
    (dst : Int32) : Emit Unit := do
  if op.divides && n = 0 then failWith .divisionByZero
  let l ← if l = dst then toTemp l else pure l
  emit { opcode := op.fpImm, off0 := l, imm := .literal n, off2 := dst }

/-- Compute from two slots. -/
def arithSlots (op : Arith) (l r dst : Int32) : Emit Unit := do
  let l ← if l = r || l = dst then toTemp l else pure l
  let r ← if r = dst then toTemp r else pure r
  emit { opcode := op.fpFp, off0 := l, off1 := r, off2 := dst }

/-- Store the result of an operation on two operands. -/
def arith (op : Arith) (l r : Val) (dst : Int32) : Emit Unit :=
  match l, r with
  | .const a, .const b =>
      if op.divides && b = 0 then failWith .divisionByZero
      else storeLit (op.fold (Felt.ofWord a) (Felt.ofWord b)).toInt32 dst
  | .const a, .slot r =>
      if op.commutes then arithSlotConst op r a dst
      else do
        let t ← temp
        storeLit a t
        arithSlots op t r dst
  | .slot l, .const b => arithSlotConst op l b dst
  | .slot l, .slot r => arithSlots op l r dst

def add (l r : Val) (dst : Int32) : Emit Unit := arith arithAdd l r dst
def sub (l r : Val) (dst : Int32) : Emit Unit := arith arithSub l r dst
def mul (l r : Val) (dst : Int32) : Emit Unit := arith arithMul l r dst
def div (l r : Val) (dst : Int32) : Emit Unit := arith arithDiv l r dst

-- ================================================================= control

def jump (target : String) : Emit Unit :=
  emit { opcode := .jmpAbsImm, imm := .label target }

/-- Jump if a slot is not zero. -/
def jumpIf (cond : Int32) (target : String) : Emit Unit :=
  emit { opcode := .jnzFpImm, off0 := cond, imm := .label target }

/-- Call a function whose frame starts at an offset. -/
def call (frame : Int32) (target : String) : Emit Unit :=
  emit
    { opcode := .callAbsImm, off0 := frame, imm := .label target,
      comment := "call " ++ target }

def ret : Emit Unit := emit { opcode := .ret }

/-- Store one if the slot is not zero and zero if it is, or the other way
round. -/
def normalize (x dst : Int32) (invert : Bool) : Emit Unit := do
  let nonzero ← newLabel "nz"
  let done ← newLabel "end"
  jumpIf x nonzero
  storeLit (if invert then 1 else 0) dst
  jump done
  label nonzero
  storeLit (if invert then 0 else 1) dst
  label done

/-- Store one if any of the slots is not zero and zero otherwise. -/
def anyNonzero (xs : List Int32) (dst : Int32) : Emit Unit := do
  let xs ← xs.mapM fun x => if x = dst then toTemp x else pure x
  let yes ← newLabel "or"
  let done ← newLabel "end"
  storeLit 0 dst
  xs.forM (jumpIf · yes)
  jump done
  label yes
  storeLit 1 dst
  label done

end Builder

end MirBackend.Asm
