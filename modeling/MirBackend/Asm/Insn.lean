/-
Assembly instructions and their written form.

An immediate is a number or a label whose address the linker will put in its
place; the linker keeps the label's name beside the number for listings. Only
the fields that the form of the operation names matter.
-/
import MirBackend.Asm.Opcode

namespace MirBackend.Asm

inductive Imm where
  /-- A number; `label` is the name it was resolved from, if any. -/
  | literal (value : Int32) (label : String := "")
  | label (name : String)
deriving DecidableEq, Repr

instance : Inhabited Imm := ⟨.literal 0⟩

structure Insn where
  opcode : Opcode
  off0 : Int32 := 0
  off1 : Int32 := 0
  off2 : Int32 := 0
  imm : Imm := .literal 0
  comment : String := ""
deriving DecidableEq, Repr, Inhabited

namespace Imm

def isLabel : Imm → Bool
  | .label _ => true
  | .literal .. => false

/-- The number of an immediate; a label that is not resolved counts zero. -/
def value : Imm → Int32
  | .literal n _ => n
  | .label _ => 0

def text : Imm → String
  | .label name => name
  | .literal n name =>
      if name.isEmpty then toString n.toInt else toString n.toInt
          ++ " <" ++ name ++ ">"

end Imm

/-- A number with its sign, also when it is not negative. -/
def signedText (n : Int32) : String :=
  if n < 0 then toString n.toInt else "+" ++ toString n.toInt

/-- A text filled with blanks on the right to a width. -/
def padRight (width : Nat) (s : String) : String :=
  s ++ String.ofList (List.replicate (width - s.length) ' ')

/-- A text filled with blanks on the left to a width. -/
def padLeft (width : Nat) (s : String) : String :=
  String.ofList (List.replicate (width - s.length) ' ') ++ s

/-- A slot, relative to the frame pointer. -/
def slotText (off : Int32) : String := "[fp" ++ signedText off ++ "]"

namespace Insn

/-- The three operands that follow the code. -/
def operands (x : Insn) : List Int32 :=
  match x.opcode.form with
  | .fpFpFp => [x.off0, x.off1, x.off2]
  | .fpImmFp => [x.off0, x.imm.value, x.off2]
  | .fpFp => [x.off0, x.off1, 0]
  | .fpImm => [x.off0, x.imm.value, 0]
  | .fp => [x.off0, 0, 0]
  | .imm => [x.imm.value, 0, 0]
  | .immFp => [x.imm.value, 0, x.off2]
  | .fpDst => [x.off0, 0, x.off2]
  | .none => [0, 0, 0]

/-- What an instruction does, by its form. -/
def action (x : Insn) : String :=
  match x.opcode.form with
  | .fpFpFp =>
      if x.opcode = .storeDoubleDerefFp then
        slotText x.off2 ++ " = [" ++ slotText x.off0 ++ " "
          ++ signedText x.off1 ++ "]"
      else
        slotText x.off2 ++ " = " ++ slotText x.off0 ++ " "
          ++ x.opcode.sign ++ " "
          ++ slotText x.off1
  | .fpImmFp =>
      slotText x.off2 ++ " = " ++ slotText x.off0 ++ " " ++ x.opcode.sign
        ++ " " ++ x.imm.text
  | .immFp => slotText x.off2 ++ " = " ++ x.imm.text
  | .fpDst => slotText x.off2 ++ " = " ++ slotText x.off0
  | .fpImm => slotText x.off0 ++ ", " ++ x.imm.text
  | .fpFp => slotText x.off0 ++ ", " ++ slotText x.off1
  | .fp => slotText x.off0
  | .imm => x.imm.text
  | .none => ""

/-- The instruction in assembly language. -/
def text (x : Insn) : String :=
  match x.opcode with
  | .unassigned n => "opcode(" ++ toString n.toNat ++ ")"
  | op =>
      padRight 24 op.text ++ x.action
        ++ (if x.comment.isEmpty then "" else "\t// " ++ x.comment)

end Insn

end MirBackend.Asm
