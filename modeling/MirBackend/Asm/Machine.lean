/-
The machine that programs run on.

Memory maps addresses to field elements, and an address that was never written
cannot be read. The frame pointer is where the slots of the running function
are counted from. A call writes the caller's frame pointer and the address to
come back to into the two slots below the new frame, and a return takes them
from there.

The machine is strict: it refuses an instruction whose label is not resolved,
an operation whose slots are not all different, and a copy of a slot to
itself. It knows the instructions that code generation uses and refuses the
others. `step` says what one instruction does, `run` repeats it until the
outermost function returns, and `Program.call` sets a frame up for an entry
point and takes the results out of it.
-/
import MirBackend.Asm.Program
import MirBackend.Field

namespace MirBackend.Asm

structure Machine where
  pc : Int32
  fp : Int32
  memory : Std.ExtTreeMap Int32 Felt := ∅

/-- The address to which the outermost function returns. -/
def stopPc : Int32 := 1073741824

namespace Machine

-- ================================================================== memory

/-- What an address holds, if it was ever written. -/
def read? (s : Machine) (a : Int32) : Option Felt := s.memory[a]?

def write (s : Machine) (a : Int32) (v : Felt) : Machine :=
  { s with memory := s.memory.insert a v }

/-- What a slot of the frame holds, if it was ever written. -/
def slot? (s : Machine) (off : Int32) : Option Felt := s.read? (s.fp + off)

def setSlot (s : Machine) (off : Int32) (v : Felt) : Machine :=
  s.write (s.fp + off) v

/-- Elements at consecutive addresses. -/
def writeAll (s : Machine) (a : Int32) : List Felt → Machine
  | [] => s
  | v :: vs => (s.write a v).writeAll (a + 1) vs

/-- The elements at `n` consecutive addresses, if all were written. -/
def readAll? (s : Machine) (a : Int32) : Nat → Option (List Felt)
  | 0 => some []
  | n + 1 => do return (← s.read? a) :: (← s.readAll? (a + 1) n)

-- ============================================================ instructions

/-- Whether the machine takes an instruction: no label is left in it, an
operation names three different slots, and no slot is both read and written. -/
def admits (x : Insn) : Bool :=
  !x.imm.isLabel && match x.opcode with
  | .storeAddFpFp | .storeSubFpFp | .storeMulFpFp | .storeDivFpFp =>
      x.off0 != x.off2 && x.off1 != x.off2 && x.off0 != x.off1
  | .storeAddFpImm | .storeSubFpImm | .storeMulFpImm | .storeDivFpImm
  | .storeDerefFp =>
      x.off0 != x.off2
  | _ => true

/-- Store a result in a slot and go on with the next instruction. -/
def store (s : Machine) (off : Int32) (v : Option Felt) : Option Machine :=
  v.map fun v => { s.setSlot off v with pc := s.pc + 1 }

/-- An operation on two slots. -/
def onSlots (s : Machine) (op : Felt → Felt → Felt)
    (a b : Int32) : Option Felt := do
  return op (← s.slot? a) (← s.slot? b)

/-- An operation on a slot and a number. -/
def onImm (s : Machine) (op : Felt → Felt → Felt) (a : Int32)
    (n : Felt) : Option Felt :=
  (s.slot? a).map (op · n)

/-- What an instruction does. -/
def execute (x : Insn) (s : Machine) : Option Machine :=
  let imm := Felt.ofWord x.imm.value
  match x.opcode with
  | .storeAddFpFp => s.store x.off2 (s.onSlots (· + ·) x.off0 x.off1)
  | .storeSubFpFp => s.store x.off2 (s.onSlots (· - ·) x.off0 x.off1)
  | .storeMulFpFp => s.store x.off2 (s.onSlots (· * ·) x.off0 x.off1)
  | .storeDivFpFp => s.store x.off2 (s.onSlots (· / ·) x.off0 x.off1)
  | .storeAddFpImm => s.store x.off2 (s.onImm (· + ·) x.off0 imm)
  | .storeSubFpImm => s.store x.off2 (s.onImm (· - ·) x.off0 imm)
  | .storeMulFpImm => s.store x.off2 (s.onImm (· * ·) x.off0 imm)
  | .storeDivFpImm => s.store x.off2 (s.onImm (· / ·) x.off0 imm)
  | .storeDerefFp => s.store x.off2 (s.slot? x.off0)
  | .storeDoubleDerefFp =>
      s.store x.off2 ((s.slot? x.off0).bind fun p =>
        s.read? (p.toInt32 + x.off1))
  | .storeImm => s.store x.off2 (some imm)
  | .callAbsImm =>
      let linked :=
        (s.setSlot x.off0 (.ofWord s.fp)).setSlot (x.off0 + 1)
        (.ofWord (s.pc + 1))
      some { linked with pc := x.imm.value, fp := s.fp + (x.off0 + 2) }
  | .ret => do
      let pc ← s.slot? (-1)
      let fp ← s.slot? (-2)
      return { s with pc := pc.toInt32, fp := fp.toInt32 }
  | .jmpAbsImm => some { s with pc := x.imm.value }
  | .jnzFpImm => do
      let cond ← s.slot? x.off0
      return { s with pc := if cond.isZero then s.pc + 1 else s.pc + x.imm.value }
  | _ => none

-- ================================================================= running

/-- The instruction at an address. -/
def fetch? (code : List Insn) (pc : Int32) : Option Insn :=
  if 0 ≤ pc then code[pc.toInt.toNat]? else none

/-- One instruction; none if the machine cannot go on. -/
def step (code : List Insn) (s : Machine) : Option Machine := do
  let x ← fetch? code s.pc
  if admits x then execute x s else none

/-- Run until the outermost function returns, for at most `fuel`
instructions. -/
def run (code : List Insn) : Nat → Machine → Option Machine
  | 0, s => if s.pc = stopPc then some s else none
  | fuel + 1, s =>
      if s.pc = stopPc then some s
      else do run code fuel (← step code s)

end Machine

namespace Program

/-- How many slots there are in all. -/
def slotTotal (ns : SlotCounts) : Nat :=
  ((ns.getD []).map (·.toInt.toNat)).foldr (· + ·) 0

/-- The data of a program at their addresses. -/
def dataMemory (p : Program) : Std.ExtTreeMap Int32 Felt :=
  p.items.zipIdx.foldl (fun m (item, i) => match item with
    | .data n => m.insert (Int32.ofNat i) (.ofWord n)
    | .insn _ => m) ∅

/-- The machine at the start of a call: arguments behind the program, room for
the results behind them, then the link of a frame that returns to `stopPc`. -/
def startCall (p : Program) (e : Entrypoint) (args : List Felt) : Machine :=
  let base := Int32.ofNat p.items.length
  let fp := base + Int32.ofNat (args.length + slotTotal e.returns) + 2
  let s : Machine := { pc := e.pc, fp, memory := p.dataMemory }
  (s.writeAll base args).writeAll (fp - 2) [.ofWord 0, .ofWord stopPc]

/-- Call a function by name with one number for each slot of its parameters; the
results are there if the machine returns within `fuel` instructions and has
written all of them. -/
def call (p : Program) (name : String) (args : List Int64) (fuel : Nat) :
    Option (List Int64) := do
  let e ← p.entrypoints[name]?
  if args.length = slotTotal e.args then
    let s ← (p.startCall e (args.map Felt.ofInt64)).run p.code fuel
    let results := Int32.ofNat p.items.length + Int32.ofNat args.length
    return (← s.readAll? results (slotTotal e.returns)).map Felt.toInt64
  else none

end Program

end MirBackend.Asm
