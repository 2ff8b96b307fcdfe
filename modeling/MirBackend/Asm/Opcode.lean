/-
The operation codes of the target machine.

The numbering is shared with the machine. Every instruction carries three
operands after its code; the *form* of a code says which fields of the
instruction they are. Numbers past the last code belong to no operation.
-/

namespace MirBackend.Asm

inductive Opcode where
  | storeAddFpFp | storeAddFpImm | storeSubFpFp | storeSubFpImm
  | storeDerefFp | storeDoubleDerefFp | storeImm
  | storeMulFpFp | storeMulFpImm | storeDivFpFp | storeDivFpImm
  | callAbsFp | callAbsImm | callRelFp | callRelImm | ret
  | jmpAbsAddFpFp | jmpAbsAddFpImm | jmpAbsDerefFp | jmpAbsDoubleDerefFp | jmpAbsImm
  | jmpAbsMulFpFp | jmpAbsMulFpImm
  | jmpRelAddFpFp | jmpRelAddFpImm | jmpRelDerefFp | jmpRelDoubleDerefFp | jmpRelImm
  | jmpRelMulFpFp | jmpRelMulFpImm
  | jnzFpFp | jnzFpImm
  | unassigned (code : UInt32)
deriving DecidableEq, Repr, Inhabited

/-- Which fields of an instruction its operands are. -/
inductive Form where
  /-- off0 off1 off2 -/
  | fpFpFp
  /-- off0 imm off2 -/
  | fpImmFp
  /-- off0 off1 -/
  | fpFp
  /-- off0 imm -/
  | fpImm
  /-- off0 -/
  | fp
  /-- imm -/
  | imm
  /-- imm off2, with nothing between -/
  | immFp
  /-- off0 off2, with nothing between -/
  | fpDst
  | none
deriving DecidableEq, Repr

namespace Opcode

/-- The operations by number. -/
def all : List Opcode :=
  [.storeAddFpFp, .storeAddFpImm, .storeSubFpFp, .storeSubFpImm, .storeDerefFp,
   .storeDoubleDerefFp, .storeImm, .storeMulFpFp, .storeMulFpImm,
     .storeDivFpFp, .storeDivFpImm,
   .callAbsFp, .callAbsImm, .callRelFp, .callRelImm, .ret,
   .jmpAbsAddFpFp, .jmpAbsAddFpImm, .jmpAbsDerefFp,
     .jmpAbsDoubleDerefFp, .jmpAbsImm,
   .jmpAbsMulFpFp, .jmpAbsMulFpImm,
   .jmpRelAddFpFp, .jmpRelAddFpImm, .jmpRelDerefFp,
     .jmpRelDoubleDerefFp, .jmpRelImm,
   .jmpRelMulFpFp, .jmpRelMulFpImm, .jnzFpFp, .jnzFpImm]

def text : Opcode → String
  | .storeAddFpFp => "store_add_fp_fp"
  | .storeAddFpImm => "store_add_fp_imm"
  | .storeSubFpFp => "store_sub_fp_fp"
  | .storeSubFpImm => "store_sub_fp_imm"
  | .storeDerefFp => "store_deref_fp"
  | .storeDoubleDerefFp => "store_double_deref_fp"
  | .storeImm => "store_imm"
  | .storeMulFpFp => "store_mul_fp_fp"
  | .storeMulFpImm => "store_mul_fp_imm"
  | .storeDivFpFp => "store_div_fp_fp"
  | .storeDivFpImm => "store_div_fp_imm"
  | .callAbsFp => "call_abs_fp"
  | .callAbsImm => "call_abs_imm"
  | .callRelFp => "call_rel_fp"
  | .callRelImm => "call_rel_imm"
  | .ret => "ret"
  | .jmpAbsAddFpFp => "jmp_abs_add_fp_fp"
  | .jmpAbsAddFpImm => "jmp_abs_add_fp_imm"
  | .jmpAbsDerefFp => "jmp_abs_deref_fp"
  | .jmpAbsDoubleDerefFp => "jmp_abs_double_deref_fp"
  | .jmpAbsImm => "jmp_abs_imm"
  | .jmpAbsMulFpFp => "jmp_abs_mul_fp_fp"
  | .jmpAbsMulFpImm => "jmp_abs_mul_fp_imm"
  | .jmpRelAddFpFp => "jmp_rel_add_fp_fp"
  | .jmpRelAddFpImm => "jmp_rel_add_fp_imm"
  | .jmpRelDerefFp => "jmp_rel_deref_fp"
  | .jmpRelDoubleDerefFp => "jmp_rel_double_deref_fp"
  | .jmpRelImm => "jmp_rel_imm"
  | .jmpRelMulFpFp => "jmp_rel_mul_fp_fp"
  | .jmpRelMulFpImm => "jmp_rel_mul_fp_imm"
  | .jnzFpFp => "jnz_fp_fp"
  | .jnzFpImm => "jnz_fp_imm"
  | .unassigned _ => "opcode?"

def form : Opcode → Form
  | .storeAddFpFp | .storeSubFpFp | .storeDoubleDerefFp | .storeMulFpFp
  | .storeDivFpFp => .fpFpFp
  | .storeAddFpImm | .storeSubFpImm | .storeMulFpImm | .storeDivFpImm =>
    .fpImmFp
  | .callAbsFp | .callRelFp | .jmpAbsAddFpFp | .jmpAbsDoubleDerefFp | .jmpAbsMulFpFp
  | .jmpRelAddFpFp | .jmpRelDoubleDerefFp | .jmpRelMulFpFp | .jnzFpFp => .fpFp
  | .callAbsImm | .callRelImm | .jmpAbsAddFpImm | .jmpAbsMulFpImm | .jmpRelAddFpImm
  | .jmpRelMulFpImm | .jnzFpImm => .fpImm
  | .jmpAbsDerefFp | .jmpRelDerefFp => .fp
  | .jmpAbsImm | .jmpRelImm => .imm
  | .storeImm => .immFp
  | .storeDerefFp => .fpDst
  | .ret | .unassigned _ => .none

def ofCode (n : UInt32) : Opcode := all.getD n.toNat (.unassigned n)

/-- The number of an operation. -/
def code : Opcode → Nat
  | .unassigned n => n.toNat
  | op => all.idxOf op

/-- The operation with the name. -/
def ofName? (s : String) : Option Opcode := all.find? (·.text == s)

/-- Whether the number belongs to an operation. -/
def isValid : Opcode → Bool
  | .unassigned _ => false
  | _ => true

/-- Whether an immediate is among the operands. -/
def hasImm (op : Opcode) : Bool :=
  match op.form with
  | .fpImmFp | .fpImm | .imm | .immFp => true
  | _ => false

/-- Whether the target is counted from the instruction itself. -/
def isRelative : Opcode → Bool
  | .callRelFp | .callRelImm | .jmpRelAddFpFp | .jmpRelAddFpImm | .jmpRelDerefFp
  | .jmpRelDoubleDerefFp | .jmpRelImm | .jmpRelMulFpFp | .jmpRelMulFpImm
  | .jnzFpFp | .jnzFpImm => true
  | _ => false

/-- The sign of the arithmetic an operation does. -/
def sign : Opcode → String
  | .storeAddFpFp | .storeAddFpImm => "+"
  | .storeSubFpFp | .storeSubFpImm => "-"
  | .storeMulFpFp | .storeMulFpImm => "*"
  | .storeDivFpFp | .storeDivFpImm => "/"
  | _ => "?"

end Opcode

end MirBackend.Asm
