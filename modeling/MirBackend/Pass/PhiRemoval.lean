/-
Leaving single-assignment form: phis become copies.

A phi chooses by the edge on which control arrives, so its copy belongs on
that edge: at the end of the source block if the edge is the only way out of
it, or the only way into the phi's block. An edge that is neither is critical
and is split first. The copies that end up in one block happen at once and are
put in order there; a block that gains copies keeps its terminator.
-/
import MirBackend.Func.Edges
import MirBackend.Pass.ParallelCopy

namespace MirBackend.PhiRemoval

open ParallelCopy (Copy sequentialize)

/-- The source blocks of the phis in a list, in order and with repetition. -/
def phiBlocks (is : List Instr) : List BlockId :=
  is.flatMap fun
    | .phi _ _ ss => ss.map (·.block)
    | _ => []

/-- Make sure that copies for the edge from `p` to `b` have a place of their
own: a critical edge is split. It must be an edge. -/
def isolate (b : BlockId) (f : Func) (p : BlockId) : Changing Func Func := do
  if f.hasBlock p && (← given f (f.block b)).hasPred p then
    if ← given f (f.isCritical p b)
      then return (← f.splitEdge p b).2 else return f
  else throw ⟨.notPredecessor f.name p b, f⟩

/-- Isolate the edges from the sources of a block's phis, each edge once. -/
def isolateSources (f : Func) (b : BlockId) : Changing Func Func := do
  let sources := (phiBlocks (← given f (f.block b)).instrs).eraseDups
  sources.foldlM (isolate b) f

/-- The copies that stand for the phis of a block: where each goes, and what it
assigns. -/
def phiCopies (b : Block) : List (BlockId × ValueId × Operand × Ty) :=
  b.instrs.flatMap fun
    | .phi d t ss => ss.map fun s => (s.block, d, s.value, t)
    | _ => []

/-- The copies that go into one block, numbered in order. -/
def copiesInto (all : List (BlockId × ValueId × Operand × Ty))
    (b : BlockId) : List Copy :=
  (all.filter (·.1 = b)).zipIdx.map fun ((_, d, v, t), i) => ⟨i, d, v, t⟩

/-- Put the copies that go into one block in order at its end. -/
def placeCopies (all : List (BlockId × ValueId × Operand × Ty)) (f : Func)
    (b : BlockId) : Func :=
  match copiesInto all b with
  | [] => f
  | cs =>
      let (done, f) := sequentialize f cs
      f.modifyBlock b fun blk =>
        { blk with instrs := blk.instrs ++ done.map Copy.toInstr }

/-- Replace every phi by copies on the edges; whether there was any. -/
def run (f : Func) : Changing Func (Bool × Func) := do
  if (← given f f.phiTotal) = 0 then return (false, f)
  let f ← ((List.range f.blocks.length).map Int.ofNat).foldlM isolateSources f
  let all := (← given f f.present).flatMap phiCopies
  let f := ((List.range f.blocks.length).map Int.ofNat).foldl
    (placeCopies all) f
  return (true, f.keepInstrs fun i => !i.isPhi && !i.isNop)

end MirBackend.PhiRemoval
