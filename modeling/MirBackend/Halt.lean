/-
Numbers that name things, and the ways an operation ends without an answer.

Blocks, values and functions are named by numbers. A number may name nothing:
negative numbers and numbers past the end are legal in a graph under
construction, and every operation says what it does with them. Value numbers
are machine words, so the number after the largest one wraps around.

An operation that cannot go on either *fails*, with an error of its own kind
that a caller may report and survive, or *halts*: it met a reference to
something that is not there, or a caller broke a rule that the operation
relies on. `Stop` joins the two.

An operation that changes something step by step may halt on the way. The
changes made until then stay made, so its halt carries what they left.
-/

namespace MirBackend

/-- The number of a basic block in its function. -/
abbrev BlockId := Int

/-- The number of a value in its function, a 64-bit word. -/
abbrev ValueId := Int64

/-- The number of a function in its module. -/
abbrev FuncId := Int

/-- The number that stands for "no block". -/
def noBlock : BlockId := -1

-- ============================================================ written form

/-- A block is written `bb` and its number. -/
def blockText (b : BlockId) : String := "bb" ++ toString b

/-- A value is written `%` and its number. -/
def valueText (v : ValueId) : String := "%" ++ toString v.toInt

/-- A message under a heading: heading, colon, message. An empty heading adds
nothing. -/
def underHeading (heading message : String) : String :=
  if heading.isEmpty then message else heading ++ ": " ++ message

-- ================================================================ stopping

/-- Why an operation halted. -/
inductive Halt where
  /-- A block, slot, type or instruction that the operation needs is not
  there. -/
  | fault
  /-- Unreachable blocks cannot be removed when the entry is one of them. -/
  | entryUnreachable (func : String) (entry : BlockId)
  /-- A block that stays jumps to one that is removed. -/
  | removedTarget (func : String) (target : BlockId)
  /-- A phi names a source block from which no edge comes. -/
  | notPredecessor (func : String) (pred succ : BlockId)
  /-- No block carries the name asked for. -/
  | noBlockNamed (name : String)
deriving DecidableEq, Repr

/-- The text of a halt; a fault has none. -/
def Halt.message : Halt → Option String
  | .fault => none
  | .entryUnreachable f b =>
      some ("dce: func " ++ f ++ ": entry block " ++ blockText b
          ++ " is unreachable")
  | .removedTarget f b =>
      some ("dce: func " ++ f
          ++ ": reachable block refers to removed block " ++ blockText b)
  | .notPredecessor f p s =>
      some ("ssa destruction: func " ++ f ++ ": phi source " ++ blockText p
        ++ " is not a predecessor of " ++ blockText s)
  | .noBlockNamed n => some ("no block " ++ n)

/-- The end of an operation without an answer: a halt, or an error of kind
`ε`. -/
inductive Stop (ε : Type) where
  | halt (reason : Halt)
  | fail (error : ε)
deriving Repr

/-- An operation that answers or halts. -/
abbrev Checked (α : Type) := Except Halt α

/-- What is there, or a fault. -/
def orFault {α : Type} : Option α → Checked α
  | some a => .ok a
  | none => .error .fault

@[simp] theorem orFault_some {α : Type} (a : α) :
    orFault (some a) = .ok a := rfl

@[simp] theorem orFault_none {α : Type} :
    orFault (none : Option α) = .error .fault := rfl

/-- An answer that may halt, as a step of something that may also fail. -/
def liftChecked {ε α : Type} : Checked α → Except (Stop ε) α
  | .ok a => .ok a
  | .error h => .error (.halt h)

/-- A step of one kind of error, as a step of another. -/
def mapError {ε δ α : Type} (g : ε → δ) : Except (Stop ε) α → Except (Stop δ) α
  | .ok a => .ok a
  | .error (.halt h) => .error (.halt h)
  | .error (.fail e) => .error (.fail (g e))

-- ========================================================= halting halfway

/-- A halt in the middle of changes: why, and what they left. -/
structure Halted (σ : Type) where
  reason : Halt
  left : σ

/-- What is left, as a part of something larger. -/
def Halted.map {σ τ : Type} (g : σ → τ) (h : Halted σ) : Halted τ :=
  ⟨h.reason, g h.left⟩

/-- Changes of a `σ` that answer or halt on the way. -/
abbrev Changing (σ α : Type) := Except (Halted σ) α

/-- An answer that changes of `s` wait for. -/
def given {σ α : Type} (s : σ) : Checked α → Changing σ α
  | .ok a => .ok a
  | .error h => .error ⟨h, s⟩

@[simp] theorem given_ok {σ α : Type} (s : σ) (a : α) :
    given s (.ok a) = .ok a := rfl

@[simp] theorem given_error {σ α : Type} (s : σ) (h : Halt) :
    given s (.error h : Checked α) = .error ⟨h, s⟩ := rfl

/-- Changes of a part, as changes of the whole. -/
def inside {σ τ α : Type} (g : σ → τ) : Changing σ α → Changing τ α
  | .ok a => .ok a
  | .error h => .error (h.map g)

/-- The answer of changes, whatever a halt left. -/
def settle {σ α : Type} : Changing σ α → Checked α
  | .ok a => .ok a
  | .error h => .error h.reason

end MirBackend
