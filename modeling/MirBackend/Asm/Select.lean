/-
Instruction selection: from the instructions of a function to assembly.

A *static* address points into the frame at an offset known beforehand: a
frame allocation, a taken address, or a constant step from one. Instructions
that define static addresses need no code; memory is read and written through
static addresses by plain slot copies, and a static address is not a value
that could be computed with.
-/
import MirBackend.Asm.Builder

namespace MirBackend.Asm

/-- What selection knows about the function and its surroundings. -/
structure Scope where
  module : Module
  func : Func
  /-- Static addresses with the frame offset they point at. -/
  static : Std.ExtTreeMap ValueId Int32 := ∅
  /-- The labels of the blocks. -/
  labels : List String := []
  /-- The block whose code comes next. -/
  next : BlockId := noBlock

namespace Scope

open Builder

variable (x : Scope)

-- ================================================================ operands

/-- The first slot of a value. -/
def offset (v : ValueId) : Emit Int32 := do
  fromLayout ((← need (← get).layout).offset v)

def isStatic (v : ValueId) : Bool := x.static.contains v

/-- A one-slot operand. -/
def val : Operand → Emit Val
  | .int n => pure (Val.ofInt n)
  | .bool b => pure (Val.ofInt (if b then 1 else 0))
  | .value v =>
      if x.isStatic v then failWith (.addressAsValue v)
        else return .slot (← offset v)
  | .unit => failWith .unitScalar
  | v => failWith (.badOperand v)

/-- Store an operand of `n` slots. -/
def moveTo (v : Operand) (dst : Int32) (n : Int64) : Emit Unit :=
  if n = 0 then pure ()
  else match v with
    | .value _ => do
        match ← x.val v with
        | .slot off => copySlots off dst n
        | .const _ => pure ()
    | _ => do
        if n ≠ 1 then failWith (.wideLiteral v n)
        move (← x.val v) dst

/-- Store an operand of `n` slots in a value. -/
def define (d : ValueId) (v : Operand) (n : Int64) : Emit Unit := do
  x.moveTo v (← offset d) n

/-- The first slot of an aggregate, which must be a value. -/
def aggregate (v : Operand) : Emit Int32 :=
  match v with
  | .value _ => do
      match ← x.val v with
      | .slot off => return off
      | .const _ => return 0
  | _ => failWith (.aggregateLiteral v)

/-- Copy `n` slots at `off` of an aggregate to a value. -/
def extract (d : ValueId) (agg : Operand) (off n : Int64) : Emit Unit := do
  let src ← x.aggregate agg
  let dst ← offset d
  copySlots (src + off.toInt32) dst n

/-- Copy an aggregate of `size` slots to a value and overwrite `n` of them at
`off`. -/
def insert (d : ValueId) (agg : Operand) (size : Int64)
    (v : Operand) (off n : Int64) : Emit Unit := do
  let src ← x.aggregate agg
  let dst ← offset d
  copySlots src dst size
  x.moveTo v (dst + off.toInt32) n

-- =============================================================== operators

/-- The number of a truth value. -/
def bit (b : Bool) : Int32 := if b then 1 else 0

def unary (op : UnaryOp) (d : ValueId) (v : Operand) : Emit Unit := do
  let dst ← offset d
  let s ← x.val v
  match op with
  | .neg => mul s (Val.ofInt (-1)) dst
  | .not => match s with
    | .const n => storeLit (bit (n = 0)) dst
    | .slot off => normalize off dst true
  | _ => failWith (.unaryOp op)

/-- Equality, or its opposite, of two operands. -/
def equality (equal : Bool) (l r : Val) (dst : Int32) : Emit Unit :=
  match l, r with
  | .const a, .const b => storeLit (bit ((a = b) == equal)) dst
  | .const _, .slot _ => do
      sub r l dst
      normalize dst dst equal
  | _, _ => do
      sub l r dst
      normalize dst dst equal

/-- Whether both operands are not zero. -/
def conjunction (l r : Val) (dst : Int32) : Emit Unit :=
  match l, r with
  | .const a, .const b => storeLit (bit (a ≠ 0 && b ≠ 0)) dst
  | .const n, .slot off | .slot off, .const n =>
      if n = 0 then storeLit 0 dst else normalize off dst false
  | .slot _, .slot _ => do
      mul l r dst
      normalize dst dst false

/-- Whether one of the operands is not zero. -/
def disjunction (l r : Val) (dst : Int32) : Emit Unit :=
  if [l, r].any (fun | .const n => n ≠ 0 | .slot _ => false) then storeLit 1 dst
  else match [l, r].filterMap (fun | .slot off => some off | .const _ => none)
    with
    | [] => storeLit 0 dst
    | xs => anyNonzero xs dst

def binary (op : BinaryOp) (d : ValueId)
    (left right : Operand) : Emit Unit := do
  if op.isU32 then failWith (.wordOp op)
  let dst ← offset d
  let l ← under "left" (x.val left)
  let r ← under "right" (x.val right)
  match op with
  | .add => add l r dst
  | .sub => sub l r dst
  | .mul => mul l r dst
  | .div => div l r dst
  | .eq => equality true l r dst
  | .neq => equality false l r dst
  | .and => conjunction l r dst
  | .or => disjunction l r dst
  | _ => failWith (.fieldOp op)

-- =================================================================== calls

/-- Whether values occupy consecutive slots from an offset with the sizes of the
types. -/
def valuesAt (l : Layout) : List (ValueId × Ty) → Int32 → Bool
  | [], _ => true
  | (v, t) :: rest, off =>
      match l.offset v with
      | .error _ => false
      | .ok o => o = off && l.slots v = t.slots && valuesAt l rest
        (off + t.slots.toInt32)

/-- Where the arguments start if they are values laid out back to back as the
callee expects; zero and no if they are not all values. -/
def argsInPlace (l : Layout) (args : List Operand)
    (params : List Ty) : Int32 × Bool :=
  match args.mapM fun a => a.id?.filter (!x.isStatic ·) with
  | none | some [] => (0, false)
  | some (v :: vs) => match l.offset v with
    | .error _ => (0, false)
    | .ok start => (start, valuesAt l ((v :: vs).zip params) start)

/-- Move the arguments one after the other to an offset. -/
def moveArgs : List ((Operand × Ty) × Nat) → Int32 → Emit Unit
  | [], _ => pure ()
  | ((a, t), i) :: rest, off => do
      under ("arg " ++ toString i) (x.moveTo a off t.slots)
      moveArgs rest (off + t.slots.toInt32)

/-- Copy the results of a call, one after the other from an offset, to their
values. -/
def copyResults : List (ValueId × Ty) → Int32 → Emit Unit
  | [], _ => pure ()
  | (d, t) :: rest, off => do
      copySlots off (← offset d) t.slots
      copyResults rest (off + t.slots.toInt32)

/-- Find room for arguments and results at the top of the frame and pass the
arguments. Arguments that are there already stay; so do results that the callee
writes in place. -/
def passArgs (args : List Operand) (dests : List ValueId)
    (params returns : List Ty) : Emit Int32 := do
  let l ← need (← get).layout
  let m := Ty.slotsOfList params
  let k := Ty.slotsOfList returns
  let (start, inPlace) := x.argsInPlace l args params
  if inPlace && start.toInt64 + m = l.frameSize then
    let _ ← reserve k
    return start
  else if inPlace && start.toInt64 + m + k = l.frameSize
      && valuesAt l (dests.zip returns) (start + m.toInt32) then
    return start
  else
    let start ← reserve (m + k)
    x.moveArgs (args.zip params).zipIdx start
    return start

def call (dests : List ValueId) (callee : FuncId)
    (args : List Operand) : Emit Unit := do
  match x.module.func? callee with
  | none => failWith (.undefinedCallee callee)
  | some g =>
      if args.length ≠ g.params.length then
        failWith (.argCount g.name args.length g.params.length)
      if dests.length ≠ g.returns.length then
        failWith (.resultCount g.name dests.length g.returns.length)
      let start ← x.passArgs args dests g.paramTypes g.returns
      let results := start + (Ty.slotsOfList g.paramTypes).toInt32
      Builder.call (results + (Ty.slotsOfList g.returns).toInt32) g.name
      copyResults (dests.zip g.returns) results

-- ================================================================== memory

/-- The slots of a type that takes as many as a value as it takes in memory. -/
def memSlots (t : Ty) : Emit Int64 := do
  if t.isMissing then return t.slots
  if (← need t.size) ≠ t.slots then failWith (.inlineArrays t)
  return t.slots

/-- Load `n` words through a pointer in a slot, word by word from the `i`-th
on. -/
def loadWords (p dst : Int32) : Int32 → Nat → Emit Unit
  | _, 0 => pure ()
  | i, n + 1 => do
      emit
        { opcode := .storeDoubleDerefFp, off0 := p, off1 := i, off2 := dst + i }
      loadWords p dst (i + 1) n

def load (d : ValueId) (t : Ty) (address : Operand) : Emit Unit := do
  let dst ← offset d
  let n ← memSlots t
  match address with
  | .value v => match x.static[v]? with
    | some a => copySlots a dst n
    | none => match ← x.val address with
      | .slot p => loadWords p dst 0 n.toInt.toNat
      | .const _ => pure ()
  | _ => failWith (.loadLiteral address)

def store (address v : Operand) (t : Ty) : Emit Unit := do
  let n ← memSlots (if t.isMissing then x.func.operandType v else t)
  match address with
  | .value p => match x.static[p]? with
    | some a => x.moveTo v a n
    | none => failWith (.runtimeStore p)
  | _ => failWith (.storeLiteral address)

def elementPtr (d : ValueId) (base off : Operand) : Emit Unit := do
  if base.id?.any x.isStatic then failWith (.dynamicOffset off)
  let dst ← offset d
  let b ← x.val base
  let o ← x.val off
  add b o dst

/-- The immediates of array elements, which must all be literals. -/
def arrayWords : List (Operand × Nat) → Emit (List Int32)
  | [] => return []
  | (e, i) :: rest => match e.imm? with
    | none => failWith (.arrayElem i e)
    | some n => return (Felt.ofInt64 n.toInt64).toInt32 :: (← arrayWords rest)

/-- An array of literals goes to the data; its value is the address of the
first. -/
def makeArray (d : ValueId) (elems : List Operand) (t : Ty) : Emit Unit := do
  if !t.isMissing then
    if (← need t.size) ≠ 1 then failWith (.arrayOf t)
  let words ← arrayWords elems.zipIdx
  let dst ← offset d
  let name ← newLabel "data"
  dataLabel name
  pushData words
  storeImm (.label name) dst "array"

-- ============================================================== aggregates

/-- Store the components of a tuple, the `i`-th first. -/
def tupleElems (dst : Int32) (ts : List Ty) : List (Operand × Nat) → Emit Unit
  | [] => pure ()
  | (e, i) :: rest => do
      let t ← need ts[i]?
      under ("elem " ++ toString i)
        (x.moveTo e (dst + ((Ty.tupleOffset ts i).getD 0).toInt32) t.slots)
      tupleElems dst ts rest

/-- Store the given fields of a struct. -/
def structFields (dst : Int32) (r : Record) :
    List (String × Operand) → Emit Unit
  | [] => pure ()
  | (n, v) :: rest => do
      match r.slotOffset? n with
      | none => failWith (.noField n r.toTy)
      | some (off, t) =>
          under ("field " ++ n) (x.moveTo v (dst + off.toInt32) t.slots)
          structFields dst r rest

def extractTuple (d : ValueId) (v : Operand) (i : Int) : Emit Unit := do
  match x.func.operandType v with
  | .tuple ts => match Ty.tupleOffset ts i with
    | none => failWith (.tupleIndex i)
    | some off => x.extract d v off (ts.getD i.toNat .missing).slots
  | _ => failWith (.notTuple v)

def insertTuple (d : ValueId) (agg : Operand) (i : Int)
    (v : Operand) (ts : List Ty) : Emit Unit :=
  match Ty.tupleOffset ts i with
  | none => failWith (.tupleIndex i)
  | some off =>
      x.insert d agg (Ty.slotsOfList ts) v off (ts.getD i.toNat .missing).slots

def extractField (d : ValueId) (v : Operand) (name : String) : Emit Unit :=
  match (x.func.operandType v).asRecord with
  | none => failWith (.notStruct v)
  | some r => match r.slotOffset? name with
    | none => failWith (.noField name r.toTy)
    | some (off, t) => x.extract d v off t.slots

def insertField (d : ValueId) (agg : Operand) (name : String)
    (v : Operand) (r : Record) : Emit Unit :=
  match r.slotOffset? name with
  | none => failWith (.noField name r.toTy)
  | some (off, t) => x.insert d agg r.toTy.slots v off t.slots

-- ============================================================ instructions

/-- The code of an instruction that defines no static address. -/
def code : Instr → Emit Unit
  | .missing => throw (.halt .fault)
  | .assign d v t =>
      let t := if t.isMissing then x.func.typeOf d else t
      x.define d v t.slots
  | .unary op d v => x.unary op d v
  | .binary op d l r => x.binary op d l r
  | .call ds callee args _ => x.call ds callee args
  | .load d t a => x.load d t a
  | .store a v t => x.store a v t
  | .elementPtr d b o => x.elementPtr d b o
  | .cast d v a b =>
      if a.slots ≠ b.slots then failWith (.cast a b) else x.define d v b.slots
  | .frameAlloc d _ | .addressOf d _ => failWith (.dynamicAddress d)
  | .debug .. | .nop => pure ()
  | .phi d .. => failWith (.phi d)
  | .makeTuple d es ts => do x.tupleElems (← offset d) ts es.zipIdx
  | .extractTuple d v i _ => x.extractTuple d v i
  | .insertTuple d agg i v ts => x.insertTuple d agg i v ts
  | .makeStruct d fs r => do x.structFields (← offset d) r fs
  | .extractField d v n _ => x.extractField d v n
  | .insertField d agg n v r => x.insertField d agg n v r
  | .makeArray d es t => makeArray d es t

/-- The code of an instruction; one that defines a static address has none. -/
def instr (i : Instr) : Emit Unit :=
  if i.dests.any x.isStatic then pure () else x.code i

-- ============================================================= terminators

/-- Go to a block, by falling into it if it comes next. -/
def jumpTo (b : BlockId) : Emit Unit := do
  if !x.func.hasBlock b then failWith (.undefinedJump b)
  if b ≠ x.next then jump (← need x.labels[b.toNat]?)

/-- Go to one of two blocks by a slot. -/
def branchOn (cond : Int32) (t e : BlockId) : Emit Unit := do
  if !x.func.hasBlock t then failWith (.undefinedBranch t)
  if t ≠ e then jumpIf cond (← need x.labels[t.toNat]?)
  x.jumpTo e

/-- Go to one of two blocks by an operand. -/
def branch (v : Val) (t e : BlockId) : Emit Unit :=
  match v with
  | .slot off => x.branchOn off t e
  | .const n => x.jumpTo (if n ≠ 0 then t else e)

/-- Go to `t` if the operands differ and to `e` if they are equal. -/
def branchNeq (l r : Val) (t e : BlockId) : Emit Unit :=
  match l, r with
  | .const a, .const b => x.branch (Val.ofInt (bit (a ≠ b))) t e
  | .const _, .slot _ => do
      let diff ← temp
      sub r l diff
      x.branchOn diff t e
  | _, _ => do
      let diff ← temp
      sub l r diff
      x.branchOn diff t e

/-- Move the returned values one after the other to an offset. -/
def moveReturns : List ((Operand × Ty) × Nat) → Int32 → Emit Unit
  | [], _ => pure ()
  | ((v, t), i) :: rest, off => do
      under ("value " ++ toString i) (x.moveTo v off t.slots)
      moveReturns rest (off + t.slots.toInt32)

def term : Option Terminator → Emit Unit
  | none => failWith .noTerminator
  | some (.jump b) => x.jumpTo b
  | some (.branch c t e) => do x.branch (← x.val c) t e
  | some (.branchCmp op l r t e) => do
      if op ≠ .eq ∧ op ≠ .neq then failWith (.branchOp op)
      let l ← x.val l
      let r ← x.val r
      if op = .eq then x.branchNeq l r e t else x.branchNeq l r t e
  | some (.ret vs) => do
      if vs.length ≠ x.func.returns.length then
        failWith (.returnCount vs.length x.func.returns.length)
      x.moveReturns (vs.zip x.func.returns).zipIdx
        (← need (← get).layout).returnOffset
      ret
  | some .unreachable => pure ()

end Scope

end MirBackend.Asm
