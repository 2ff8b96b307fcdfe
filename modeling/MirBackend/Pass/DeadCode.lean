/-
Removal of code that cannot matter.

`removeUnreachable` keeps the blocks that control can reach, in their order,
and renumbers them: targets, phi sources and the entry follow, predecessor
lists are rebuilt, and phi sources from removed blocks go.

`removeDead` takes out instructions without side effects whose results nobody
reads, and those that do nothing, until none is left; taking one out may leave
another without readers. Every round but the last shortens the function.
-/
import MirBackend.Func.Reach
import Std.Data.ExtTreeSet

namespace MirBackend.DeadCode

-- ====================================================== unreachable blocks

/-- The numbers that the kept blocks get: how many kept blocks come before
each. -/
structure Renumbering where
  kept : BitSet
  count : Nat

namespace Renumbering

/-- The new number of a block, if it is kept. -/
def new? (r : Renumbering) : BlockId → Option BlockId
  | .ofNat i =>
      if i < r.count ∧ r.kept.contains i then
        some (((List.range i).countP r.kept.contains : Nat) : Int)
      else none
  | .negSucc _ => none

/-- The new number of a block that must have been kept. -/
def target (r : Renumbering) (func : String) (b : BlockId) : Checked BlockId :=
  match r.new? b with
  | some n => .ok n
  | none => .error (.removedTarget func b)

/-- A terminator with its targets renumbered; every one of them must have been
kept. -/
def term (r : Renumbering) (func : String) : Terminator → Checked Terminator
  | .jump t => return .jump (← r.target func t)
  | .branch c t e => return .branch c (← r.target func t) (← r.target func e)
  | .branchCmp op a b t e =>
      return .branchCmp op a b (← r.target func t) (← r.target func e)
  | t => .ok t

/-- An instruction with the sources of phis renumbered; those from removed
blocks go. -/
def instr (r : Renumbering) : Instr → Instr
  | .phi d t ss => .phi d t
    (ss.filterMap fun s => (r.new? s.block).map fun b => ⟨b, s.value⟩)
  | i => i

/-- A kept block, renumbered and without predecessors. -/
def block (r : Renumbering) (func : String) (b : Block) : Checked Block := do
  let term ← b.term.mapM (r.term func)
  return { b with term, preds := [], instrs := b.instrs.map r.instr }

end Renumbering

/-- Keep only the blocks that control can reach; whether any was removed. -/
def removeUnreachable (f : Func) : Changing Func (Bool × Func) := do
  let reach ← given f f.reachable
  if !reach.containsInt f.entry then throw ⟨.entryUnreachable f.name f.entry, f⟩
  if reach.size = f.blocks.length then return (false, f)
  let bs ← given f f.present
  let r : Renumbering := ⟨reach, bs.length⟩
  let kept := bs.zipIdx.filter fun (_, i) => reach.contains i
  let blocks ← given f (kept.mapM fun (b, _) => r.block f.name b)
  let entry := (r.new? f.entry).getD noBlock
  let order := kept.map fun (_, i) => i
  let f ← ({ f with blocks := blocks.map some, entry }.record
      (.keep order)).recomputePreds
  return (true, f)

-- ======================================================= dead instructions

/-- Whether an instruction stays, given the values that the function reads. -/
def isLive (read : Std.ExtTreeSet ValueId) (i : Instr) : Bool :=
  !i.isNop && (i.hasSideEffects || i.dests.any (read.contains ·))

/-- Remove dead instructions in rounds, at most `fuel` of them. -/
def removeDeadLoop : Nat → Bool → Func → Changing Func (Bool × Func)
  | 0, modified, f => .ok (modified, f)
  | fuel + 1, modified, f => do
      let read := Std.ExtTreeSet.ofList (← given f f.reads)
      if f.anyDropped (isLive read) then removeDeadLoop fuel true (f.keepInstrs (isLive read))
      else return (modified, f)

/-- Remove instructions without side effects whose results are never read;
whether any was removed. -/
def removeDead (f : Func) : Changing Func (Bool × Func) := do
  removeDeadLoop ((← given f f.instrCount) + 1) false f

/-- Both removals; whether either changed the function. -/
def run (f : Func) : Changing Func (Bool × Func) := do
  let _ ← given f f.instrCount
  let (blocks, f) ← removeUnreachable f
  let (instrs, f) ← removeDead f
  return (blocks || instrs, f)

end MirBackend.DeadCode
