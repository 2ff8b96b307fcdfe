/-
The written form of modules.

One line a statement, indented by a tabulator; a blank line between functions.
The entry is written only when it is not the first block. Inside a module a
call names its callee; a function printed alone gives the callee's number.
What the reader can reconstruct is not written: the types of stores, what a
cast starts from, the signatures of calls. A hole and a block without
terminator have no written form.
-/
import MirBackend.Func
import MirBackend.Text.Quoted

namespace MirBackend.Source

/-- Why a module or function has no written form. -/
inductive PrintError where
  | hole (block : BlockId) (index : Nat)
  | noTerminator (block : BlockId)
  | inFunc (name : String) (error : PrintError)
deriving DecidableEq, Repr

def PrintError.message : PrintError → String
  | .hole b j =>
      "block " ++ blockText b ++ ": instr " ++ toString j
          ++ ": unsupported instruction: <nil>"
  | .noTerminator b => "block " ++ blockText b ++ ": terminator: no terminator"
  | .inFunc n e => underHeading ("func " ++ n) e.message

/-- Printing: a text, an error or a halt. -/
abbrev Printing := Except (Stop PrintError)

-- ============================================================== statements

/-- A value with its type. -/
def typedText (f : Func) (id : ValueId) : String :=
  valueText id ++ ": " ++ (f.typeOf id).text

/-- The destinations of a definition up to the operation. -/
def destText (f : Func) (ids : List ValueId) : String :=
  ", ".intercalate (ids.map (typedText f)) ++ " = "

/-- How a call names its callee. -/
def calleeText (m : Option Module) (callee : FuncId) : String :=
  match m.bind (·.func? callee) with
  | some g => g.name
  | none => toString callee

def sourceText (s : PhiSource) : String :=
  "[" ++ blockText s.block ++ ": " ++ s.value.text ++ "]"

/-- An instruction; a hole has no text. -/
def instrText (m : Option Module) (f : Func) : Instr → Option String
  | .missing => none
  | .assign d v _ => some (destText f [d] ++ "assign " ++ v.text)
  | .unary op d v => some (destText f [d] ++ op.text ++ " " ++ v.text)
  | .binary op d l r =>
    some (destText f [d] ++ op.text ++ " " ++ Operand.listText [l, r])
  | .call ds callee args _ =>
      some ((if ds.isEmpty then "" else destText f ds) ++ "call @"
          ++ calleeText m callee ++ "("
        ++ Operand.listText args ++ ")")
  | .load d _ a => some (destText f [d] ++ "load " ++ a.text)
  | .store a v _ => some ("store " ++ Operand.listText [a, v])
  | .frameAlloc d _ => some (destText f [d] ++ "framealloc")
  | .addressOf d v => some (destText f [d] ++ "addressof " ++ valueText v)
  | .elementPtr d b o =>
    some (destText f [d] ++ "gep " ++ Operand.listText [b, o])
  | .cast d v _ _ => some (destText f [d] ++ "cast " ++ v.text)
  | .debug msg vs =>
      some ("debug " ++ Text.quote msg
        ++ (if vs.isEmpty then "" else " " ++ Operand.listText vs))
  | .nop => some "nop"
  | .phi d _ ss =>
    some (destText f [d] ++ "phi " ++ ", ".intercalate (ss.map sourceText))
  | .makeTuple d vs _ =>
    some (destText f [d] ++ "tuple " ++ Operand.listText vs)
  | .extractTuple d v i _ =>
    some (destText f [d] ++ "extract " ++ v.text ++ ", " ++ toString i)
  | .makeStruct d fs _ =>
      some (destText f [d] ++ "struct "
        ++ ", ".intercalate (fs.map fun (n, v) => n ++ ": " ++ v.text))
  | .extractField d v n _ =>
    some (destText f [d] ++ "field " ++ v.text ++ ", " ++ n)
  | .insertField d v n x _ =>
      some (destText f [d] ++ "insertfield " ++ v.text ++ ", " ++ n
          ++ ", " ++ x.text)
  | .insertTuple d v i x _ =>
      some (destText f [d] ++ "inserttuple " ++ v.text ++ ", " ++ toString i
          ++ ", " ++ x.text)
  | .makeArray d vs _ =>
    some (destText f [d] ++ "array " ++ Operand.listText vs)

/-- The two targets of a branch. -/
def branchText (t e : BlockId) : String :=
  " then " ++ blockText t ++ " else " ++ blockText e

def termText : Terminator → String
  | .jump t => "jump " ++ blockText t
  | .branch c t e => "if " ++ c.text ++ branchText t e
  | .branchCmp op l r t e =>
      "brcmp " ++ op.text ++ " " ++ Operand.listText [l, r] ++ branchText t e
  | .ret vs =>
    "return" ++ (if vs.isEmpty then "" else " " ++ Operand.listText vs)
  | .unreachable => "unreachable"

-- =============================================================== functions

/-- The line of an instruction. -/
def instrLine (m : Option Module) (f : Func) (b : BlockId) :
    Instr × Nat → Printing String
  | (i, j) => match instrText m f i with
    | some t => .ok ("\t" ++ t ++ "\n")
    | none => .error (.fail (.hole b j))

/-- A block: its label, its instructions, its terminator. -/
def blockLines (m : Option Module) (f : Func) :
    Option Block × Nat → Printing String
  | (none, _) => .error (.halt .fault)
  | (some b, i) => do
      let label := blockText i ++ " " ++ b.name ++ ":\n"
      let lines ← b.instrs.zipIdx.mapM (instrLine m f i)
      match b.term with
      | none => .error (.fail (.noTerminator i))
      | some t => return label ++ String.join lines ++ "\t"
          ++ termText t ++ "\n"

/-- The line that opens a function. -/
def headText (f : Func) : String :=
  "fn " ++ f.name ++ "(" ++ ", ".intercalate (f.params.map (typedText f))
    ++ ") -> ("
    ++ Ty.textOfList f.returns ++ ") \x7b\n"

/-- A function; callees are named if the module is given. -/
def funcText (m : Option Module) (f : Func) : Printing String := do
  let entry := if f.entry = 0 then "" else "\tentry "
      ++ blockText f.entry ++ "\n"
  let blocks ← f.blocks.zipIdx.mapM (blockLines m f)
  return headText f ++ entry ++ String.join blocks ++ "\x7d\n"

/-- A module: its functions with a blank line between them. -/
def moduleText (m : Module) : Printing String := do
  let texts ← m.functions.mapM fun f => mapError (.inFunc f.name)
    (funcText (some m) f)
  return "\n".intercalate texts

end MirBackend.Source
