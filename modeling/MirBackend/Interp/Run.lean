/-
The interpreter.

A function runs block by block. On entry to a block its leading phis take, all
at once, the values that belong to the edge on which control arrived; then its
instructions run in order, then its terminator. Every instruction and every
terminator is a step, and the steps of a whole run, calls included, are
bounded. Memory, the count of steps and the trace of debug messages belong to
the machine and survive a run, also one that ends in an error.

Entering a block costs a step at least, so the number of blocks entered along
any chain of jumps and calls is bounded by the steps left; `runFrom` recurs on
that bound.
-/
import MirBackend.Func
import MirBackend.Interp.Arith

namespace MirBackend.Interp

/-- A debug message and the values given with it. -/
structure Event where
  message : List UInt8
  values : List Slots
deriving DecidableEq, Repr

structure Machine where
  memory : Memory := {}
  /-- Steps taken so far. -/
  steps : Nat := 0
  /-- The bound on steps. -/
  limit : Int := 100000
  /-- Debug messages so far, the latest first. -/
  trace : List Event := []

instance : Inhabited Machine := ⟨{}⟩

/-- Debug messages in the order in which they came. -/
def Machine.events (m : Machine) : List Event := m.trace.reverse

/-- The values of a running function. -/
abbrev Frame := Std.ExtTreeMap ValueId Value

/-- A part of a run; the machine survives an error. -/
abbrev Exec := EStateM (Stop RunError) Machine

def failWith {α : Type} (e : RunError) : Exec α := throw (.fail e)

/-- Report errors under a heading. -/
def under {α : Type} (heading : String) (x : Exec α) : Exec α := fun s =>
  match x s with
  | .ok a s => .ok a s
  | .error (.fail e) s => .error (.fail (.within heading e)) s
  | .error (.halt h) s => .error (.halt h) s

/-- An answer that does not touch the machine. -/
def lift {α : Type} : Access α → Exec α
  | .ok a => pure a
  | .error e => throw e

/-- An answer that does not touch the machine, or a fault. -/
def sure {α : Type} (a : Checked α) : Exec α := lift (liftChecked a)

/-- Halt unless something is there. -/
def need {α : Type} (a : Option α) : Exec α := sure (orFault a)

/-- Count a step. -/
def tick : Exec Unit := do
  modify fun s => { s with steps := s.steps + 1 }
  let s ← get
  if (s.steps : Int) > s.limit then failWith .stepLimit

-- ================================================================ operands

/-- The value of an operand. -/
def eval (fr : Frame) : Operand → Exec Value
  | .value id => match fr[id]? with
    | some v => pure v
    | none => failWith (.undefinedValue id)
  | .int n => pure ⟨feltSlots (Felt.ofInt64 n.toInt64), 0⟩
  | .bool b => pure ⟨[bit b], 0⟩
  | .unit => pure default
  | v => failWith (.badOperand v)

/-- The value of an operand of one slot. -/
def scalar (fr : Frame) (v : Operand) : Exec Int64 := do
  match (← eval fr v).slots with
  | [x] => return x
  | s => failWith (.notScalar v s.length)

-- ================================================================== memory

/-- Hand out fresh memory. -/
def alloc (n : Int64) : Exec Int64 := do
  let s ← get
  let (a, memory) ← sure (s.memory.alloc n)
  set { s with memory }
  return a

/-- Store a value of a type. -/
def store (a : Int64) (t : Ty) (v : Value) : Exec Unit := fun s =>
  match Memory.store a t v s.memory with
  | .ok () memory => .ok () { s with memory }
  | .error e memory => .error e { s with memory }

/-- Store array elements of a type one after the other. -/
def storeElems (fr : Frame) (t : Ty) (stride : Int64) :
    Int64 → List Operand → Exec Unit
  | _, [] => pure ()
  | a, e :: es => do
      store a t (← eval fr e)
      storeElems fr t stride (a + stride) es

-- ============================================================ instructions

/-- The values of call arguments, each reported under its position. -/
def evalArgs (fr : Frame) : List (Operand × Nat) → Exec (List Value)
  | [] => return []
  | (a, i) :: rest => do
      let v ← under ("arg " ++ toString i) (eval fr a)
      return v :: (← evalArgs fr rest)

/-- Put the given fields of a struct in their places. -/
def putFields (fr : Frame) (r : Record) : List (String × Operand) →
    Value → Exec Value
  | [], v => return v
  | (n, x) :: rest, v => match r.field? n with
    | none => failWith (.noField n)
    | some f => do
        let x ← eval fr x
        putFields fr r rest (← sure (v.overwrite f.offset x.slots))

/-- How a call of a function is run. -/
abbrev Caller := Func → List Value → Exec (List Value)

/-- Run a call. -/
def execCall (m : Module) (caller : Caller) (fr : Frame)
    (ds : List ValueId) (callee : FuncId)
    (args : List Operand) : Exec Frame := do
  match m.func? callee with
  | none => failWith (.undefinedCallee callee)
  | some g =>
      let args ← evalArgs fr args.zipIdx
      let res ← under ("call " ++ g.name) (caller g args)
      if ds.length ≠ 0 ∧ ds.length ≠ res.length then
        failWith (.resultCount g.name res.length ds.length)
      return (ds.zip res).foldl (fun fr (d, v) => fr.insert d v) fr

/-- Run one instruction. -/
def exec (m : Module) (caller : Caller) (f : Func) (fr : Frame) : Instr → Exec Frame
  | .missing => failWith .hole
  | .assign d v _ | .cast d v _ _ => return fr.insert d (← eval fr v)
  | .unary op d v => do return fr.insert d ⟨← lift (unaryOp op (← scalar fr v)), 0⟩
  | .binary op d l r => do
      let l ← eval fr l
      let r ← eval fr r
      return fr.insert d ⟨← lift (binaryOp op l.slots r.slots), 0⟩
  | .call ds callee args _ => execCall m caller fr ds callee args
  | .frameAlloc d t => do return fr.insert d ⟨[← alloc (← need t.size)], 0⟩
  | .addressOf d v => do
      let x := (← eval fr (.value v)).slots
      let a ← alloc (Int64.ofNat x.length)
      modify fun s => { s with memory := s.memory.write a.toInt.toNat x }
      return fr.insert d ⟨[a], 0⟩
  | .elementPtr d base off => do
      let a ← scalar fr base
      let n ← scalar fr off
      return fr.insert d ⟨[a + n], 0⟩
  | .load d t address => do
      let a ← scalar fr address
      return fr.insert d (← lift ((← get).memory.load a t))
  | .store address v t => do
      let a ← scalar fr address
      let x ← eval fr v
      store a (if t.isMissing then f.operandType v else t) x
      return fr
  | .debug message vs => do
      let values ← vs.mapM (eval fr)
      modify fun s => { s with trace := ⟨message, values.map (·.slots)⟩ :: s.trace }
      return fr
  | .nop => return fr
  | .phi d .. => failWith (.latePhi d)
  | .makeTuple d es _ => do
      let parts ← es.mapM (eval fr)
      return fr.insert d (parts.foldl (fun v x => v.append x.slots) default)
  | .makeStruct d fs r => do
      let blank := List.replicate r.toTy.slots.toInt.toNat 0
      return fr.insert d (← putFields fr r fs ⟨blank, 0⟩)
  | .extractTuple d v i _ => do
      let x ← eval fr v
      match f.operandType v with
      | .tuple ts => match Ty.tupleOffset ts i with
        | none => failWith (.tupleIndex i)
        | some off =>
            return fr.insert d (← sure (x.part off (ts.getD i.toNat .missing).slots))
      | _ => failWith .notTuple
  | .extractField d v n _ => do
      let x ← eval fr v
      match (f.operandType v).asRecord with
      | none => failWith .notStruct
      | some r => match r.field? n with
        | none => failWith (.noField n)
        | some fld => return fr.insert d (← sure (x.part fld.offset fld.type.slots))
  | .insertTuple d agg i v ts => do
      let x ← eval fr agg
      let y ← eval fr v
      match Ty.tupleOffset ts i with
      | none => failWith (.tupleIndex i)
      | some off =>
          return fr.insert d (← sure ((Value.copyOf x.slots).overwrite off y.slots))
  | .insertField d agg n v r => do
      let x ← eval fr agg
      let y ← eval fr v
      match r.field? n with
      | none => failWith (.noField n)
      | some fld =>
          return fr.insert d (← sure ((Value.copyOf x.slots).overwrite fld.offset y.slots))
  | .makeArray d es t => do
      let stride ← need t.size
      let a ← alloc (stride * Int64.ofNat es.length)
      storeElems fr t stride a es
      return fr.insert d ⟨[a], 0⟩

/-- Run instructions from the `j`-th of a block on. -/
def execAll (m : Module) (caller : Caller) (f : Func) (b : BlockId) :
    Nat → List Instr → Frame → Exec Frame
  | _, [], fr => return fr
  | j, i :: is, fr => do
      tick
      let heading := "block " ++ blockText b ++ ": instr " ++ toString j
      let fr ← under heading (exec m caller f fr i)
      execAll m caller f b (j + 1) is fr

-- ================================================================== blocks

/-- The values that phis take on an edge, each paired with what it defines. -/
def phiValues (fr : Frame) (prev cur : BlockId) : List Instr →
    Exec (List (ValueId × Value))
  | .phi d _ ss :: rest => match ss.find? (·.block = prev) with
    | none => failWith (.noSource d prev cur)
    | some s => do
        let v ← under ("phi " ++ valueText d) (eval fr s.value)
        return (d, v) :: (← phiValues fr prev cur rest)
  | _ => return []

/-- Assign the leading phis of a block, all at once. -/
def enterBlock (fr : Frame) (b : Block) (prev cur : BlockId) : Exec Frame := do
  let vs ← phiValues fr prev cur b.leadingPhis
  return vs.foldl (fun fr (d, v) => fr.insert d v) fr

/-- Where control goes at the end of a block. -/
inductive Next where
  | block (b : BlockId)
  | ret (values : List Value)

/-- Run a terminator. -/
def execTerm (fr : Frame) : Option Terminator → Exec Next
  | none => failWith .noTerminator
  | some (.jump t) => return .block t
  | some (.branch c t e) => do return .block (if (← scalar fr c) ≠ 0 then t else e)
  | some (.branchCmp op l r t e) => do
      let l ← eval fr l
      let r ← eval fr r
      let v ← lift (binaryOp op l.slots r.slots)
      return .block (if v.headD 0 ≠ 0 then t else e)
  | some (.ret vs) => return .ret (← vs.mapM (eval fr))
  | some .unreachable => failWith .unreachable

/-- A call: as many arguments as parameters, and a frame that holds them. -/
def callWith (go : Func → Frame → BlockId → BlockId → Exec (List Value)) :
    Caller :=
  fun f args =>
    if args.length ≠ f.params.length then failWith
      (.argCount args.length f.params.length)
    else
      go f ((f.params.zip args).foldl (fun fr (p, v) => fr.insert p v) ∅)
        noBlock f.entry

/-- Run a function from the block `cur`, entered from `prev`, until it returns.
A jump to no block at all returns nothing. -/
def runFrom (m : Module) : Nat → Func → Frame → BlockId →
    BlockId → Exec (List Value)
  | 0, _, _, _, _ => failWith .stepLimit
  | fuel + 1, f, fr, prev, cur => match f.block? cur with
    | none => failWith (.undefinedBlock cur)
    | some b => do
        let heading := "block " ++ blockText cur
        let fr ← under heading (enterBlock fr b prev cur)
        let fr ← execAll m
          (callWith (runFrom m fuel)) f cur b.phiCount b.body fr
        tick
        match ← under (heading ++ ": terminator") (execTerm fr b.term) with
        | .ret vs => return vs
        | .block next =>
            if next = noBlock then return [] else runFrom m fuel f fr cur next

/-- Call a function with the steps that are left. -/
def callFunc (m : Module) (f : Func) (args : List Value) :
    Exec (List Value) := do
  let s ← get
  callWith (runFrom m ((s.limit - s.steps).toNat + 1)) f args

/-- Call a function by name with arguments of one slot each. -/
def call (m : Module) (name : String) (args : List Int64) :
    Exec (List Int64) := do
  match (m.lookup name).bind m.func? with
  | none => failWith (.noFunction name)
  | some f =>
      let args := args.map fun a => ⟨feltSlots (Felt.ofInt64 a), 0⟩
      return (← under name (callFunc m f args)).flatMap (·.slots)

/-- Run a function that belongs to no module but its own. -/
def runAlone (f : Func) (args : List Int64) :
    Except (Stop RunError) (List Int64) :=
  match call ⟨[f]⟩ f.name args {} with
  | .ok r _ => .ok r
  | .error e _ => .error e

end MirBackend.Interp
