/-
Linked programs.

A program is a list of items, instructions first and data after them; the
address of an item is its place in the list. Labels are listed in the order of
their definition with the addresses they stand for. Entry points say how to
call a function: its address and the slots of its parameters and results.
-/
import MirBackend.Asm.Insn
import MirBackend.Text.Json
import Std.Data.ExtTreeMap

namespace MirBackend.Asm

inductive Item where
  | insn (x : Insn)
  | data (n : Int32)
deriving DecidableEq, Repr, Inhabited

/-- A label and its address. -/
structure Label where
  name : String
  address : Int32
deriving DecidableEq, Repr

/-- The slots of parameters or of results, one number for each; none if nothing
was said about them. -/
abbrev SlotCounts := Option (List Int64)

/-- How to call a function. -/
structure Entrypoint where
  pc : Int32
  args : SlotCounts
  returns : SlotCounts
deriving DecidableEq, Repr

structure Metadata where
  sourceFile : String := ""
  compilerVersion : String := ""
deriving DecidableEq, Repr

structure Program where
  items : List Item := []
  labels : List Label := []
  entrypoints : Std.ExtTreeMap String Entrypoint := ∅
  metadata : Metadata := {}

instance : Inhabited Program := ⟨{}⟩

namespace Program

/-- The instructions. -/
def code (p : Program) : List Insn :=
  p.items.filterMap fun
    | .insn x => some x
    | .data _ => none

/-- The address of a label. -/
def address? (p : Program) (name : String) : Option Int32 :=
  (p.labels.find? (·.name == name)).map (·.address)

-- ================================================================= listing

/-- Numbers in square brackets with blanks between them. -/
def numbersText (ns : SlotCounts) : String :=
  "[" ++ " ".intercalate ((ns.getD []).map fun n => toString n.toInt) ++ "]"

/-- The line of an entry point. -/
def entryLine (name : String) (e : Entrypoint) : String :=
  "// entrypoint " ++ name ++ " pc " ++ toString e.pc.toInt ++ " args "
    ++ numbersText e.args
    ++ " returns " ++ numbersText e.returns ++ "\n"

/-- The line of an item at an address. -/
def itemLine (pc : Nat) : Item → String
  | .insn x => padLeft 5 (toString pc) ++ "\t" ++ x.text ++ "\n"
  | .data n => padLeft 5 (toString pc) ++ "\t.data " ++ toString n.toInt ++ "\n"

def labelLine (l : Label) : String := l.name ++ ":\n"

/-- Items with addresses from `pc` on, each after the labels up to its address;
the labels that are left come last. -/
def itemLines : Nat → List Label → List Item → List String
  | _, labels, [] => labels.map labelLine
  | pc, labels, item :: items =>
      let due := fun l : Label => decide (l.address ≤ Int32.ofNat pc)
      (labels.takeWhile due).map labelLine ++ itemLine pc item
        :: itemLines (pc + 1) (labels.dropWhile due) items

/-- The assembly listing. -/
def listing (p : Program) : String :=
  let source :=
    if p.metadata.sourceFile.isEmpty then ""
    else "// source " ++ p.metadata.sourceFile ++ "\n"
  let entries := p.labels.filterMap fun l =>
    p.entrypoints[l.name]?.map (entryLine l.name)
  source ++ String.join entries ++ String.join (itemLines 0 p.labels p.items)

-- ==================================================================== JSON

open Text (Json)

def numbersJson : SlotCounts → Json
  | none => .null
  | some ns => .arr (ns.map fun n => .num n.toInt)

def itemJson : Item → Json
  | .insn x =>
      .obj [("opcode", .num x.opcode.code), ("name", .str x.opcode.text),
        ("operands", .arr (x.operands.map fun n => .num n.toInt))]
  | .data n => .obj [("data", .num n.toInt)]

def entryJson (e : Entrypoint) : Json :=
  .obj [("pc", .num e.pc.toInt), ("args", numbersJson e.args),
    ("returns", numbersJson e.returns)]

/-- Members that are not empty texts. -/
def textMembers (ms : List (String × String)) : List (String × Json) :=
  (ms.filter fun m => !m.2.isEmpty).map fun (k, s) => (k, .str s)

/-- The program as a JSON value; entry points are ordered by name. -/
def json (p : Program) : Json :=
  .obj
    [("metadata", .obj (textMembers
        [("source_file", p.metadata.sourceFile),
         ("compiler_version", p.metadata.compilerVersion)])),
     ("entrypoints",
     .obj (p.entrypoints.toList.map fun (k, e) => (k, entryJson e))),
     ("program", .arr (p.items.map itemJson))]

end Program

end MirBackend.Asm
