/-
Copies that happen all at once, one after the other.

A parallel copy assigns several values at the same moment, each from a source
as it was before. To do the same one assignment at a time, a destination may
be written only when no copy still waiting reads it. Copies without waiting
readers are *ready*; the one listed first goes first. When none is ready, the
waiting copies form cycles: the destination of the first waiting copy is saved
in a fresh value, its readers read that instead, and the copy is ready.

If a destination is listed twice the later listing counts, and a copy of a
value to itself is left out.
-/
import MirBackend.Func

namespace MirBackend.ParallelCopy

/-- One assignment of a parallel copy; `turn` is its place in the list. -/
structure Copy where
  turn : Nat
  dest : ValueId
  source : Operand
  type : Ty
deriving Repr, Inhabited

namespace Copy

/-- Whether the copy assigns a value to itself. -/
def isIdle (c : Copy) : Bool := c.source == .value c.dest

def toInstr (c : Copy) : Instr := .assign c.dest c.source c.type

/-- Put a copy where its turn comes in a list sorted by turns. -/
def insertByTurn (c : Copy) : List Copy → List Copy
  | [] => [c]
  | d :: ds => if c.turn < d.turn then c :: d :: ds else d :: insertByTurn c ds

/-- The copy whose turn comes first. -/
def first? : List Copy → Option Copy
  | [] => none
  | c :: cs => match first? cs with
    | none => some c
    | some d => some (if d.turn < c.turn then d else c)

end Copy

/-- The state of ordering a parallel copy. -/
structure Sequencing where
  /-- Copies not yet done, one for each destination. -/
  waiting : List Copy
  /-- How many waiting copies read a value. -/
  readers : Std.ExtTreeMap ValueId Int
  /-- Waiting copies that may be done, sorted by turn. -/
  ready : List Copy
  func : Func
  /-- The assignments so far. -/
  done : List Copy := []

namespace Sequencing

def waitingFor (o : Sequencing) (v : ValueId) : Option Copy :=
  o.waiting.find? (·.dest = v)

def readersOf (o : Sequencing) (v : ValueId) : Int := o.readers.getD v 0

/-- The copies that count: idle ones are left out, the last one for a
destination stays. -/
def effective (cs : List Copy) : List Copy :=
  cs.foldl (fun w c => if c.isIdle then w
    else w.filter (·.dest ≠ c.dest) ++ [c]) []

/-- How many of the copies read each value. -/
def countReaders (cs : List Copy) : Std.ExtTreeMap ValueId Int :=
  (Operand.ids (cs.map (·.source))).foldl
  (fun m v => m.insert v (m.getD v 0 + 1)) ∅

/-- The start: the copies whose destination no other copy reads are ready. -/
def start (f : Func) (cs : List Copy) : Sequencing :=
  let waiting := effective cs
  let readers := countReaders waiting
  let ready := waiting.filter fun c => readers.getD c.dest 0 = 0
  { waiting, readers, func := f,
    ready := ready.foldl (fun r c => c.insertByTurn r) [] }

/-- Do a ready copy. What it read may now be free to be written. -/
def emit (o : Sequencing) (c : Copy) (ready : List Copy) : Sequencing :=
  let o := { o with
    waiting := o.waiting.filter (·.dest ≠ c.dest)
    ready
    done := o.done ++ [c] }
  match c.source.id? with
  | none => o
  | some v =>
      let n := o.readersOf v - 1
      let o := { o with readers := o.readers.insert v n }
      match o.waitingFor v with
      | some p =>
        if n = 0 then { o with ready := p.insertByTurn o.ready } else o
      | none => o

/-- Save the destination of a waiting copy in a fresh value and let its readers
read that. -/
def breakCycle (o : Sequencing) (c : Copy) : Sequencing :=
  let (saved, f) := o.func.newTyped c.type
  let redirect := fun p : Copy =>
    if p.source = .value c.dest then { p with source := .value saved } else p
  { o with
    func := f
    waiting := o.waiting.map redirect
    readers := o.readers.insert c.dest 0
    ready := [redirect c]
    done := o.done ++ [⟨0, saved, .value c.dest, c.type⟩] }

/-- Do ready copies and break cycles until nothing waits, at most `fuel`
times. -/
def run : Nat → Sequencing → List Copy × Func
  | 0, o => (o.done, o.func)
  | fuel + 1, o => match o.ready with
    | c :: ready => run fuel (o.emit c ready)
    | [] => match Copy.first? o.waiting with
      | none => (o.done, o.func)
      | some c => run fuel (o.breakCycle c)

end Sequencing

/-- Assignments that do one after the other what the copies do at once, and the
function with the fresh values they use. -/
def sequentialize (f : Func) (cs : List Copy) : List Copy × Func :=
  (Sequencing.start f cs).run (2 * cs.length + 1)

end MirBackend.ParallelCopy
