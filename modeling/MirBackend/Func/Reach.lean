/-
Reachability from the entry.

A depth-first walk over the targets that exist. The walk keeps the blocks still
to be expanded on a stack and the blocks ever put there in a bit set, so a
block is expanded once; as many expansions as there are blocks are enough.
-/
import MirBackend.BitSet
import MirBackend.Func.Edges

namespace MirBackend.Func

/-- Put on the stack the targets that exist and were not seen, the last one on
top. -/
def pushUnseen (f : Func) : List BlockId → List BlockId × BitSet →
    List BlockId × BitSet
  | [], st => st
  | .ofNat s :: rest, (stack, seen) =>
      if f.hasBlock s && !seen.contains s then
        f.pushUnseen rest (Int.ofNat s :: stack, seen.insert s)
      else f.pushUnseen rest (stack, seen)
  | .negSucc _ :: rest, st => f.pushUnseen rest st

/-- Expand blocks from the stack until it is empty or `fuel` expansions are
done. -/
def reachLoop (f : Func) : Nat → List BlockId × BitSet → Checked BitSet
  | _, ([], seen) => .ok seen
  | 0, (_, seen) => .ok seen
  | fuel + 1, (b :: stack, seen) => do
      let succs ← f.successors b
      f.reachLoop fuel (f.pushUnseen succs (stack, seen))

/-- The blocks that control can reach from the entry; none if the entry does not
exist. -/
def reachable (f : Func) : Checked BitSet :=
  let none := BitSet.ofCapacity (Int64.ofNat f.blocks.length)
  if f.hasBlock f.entry then
    f.reachLoop f.blocks.length ([f.entry], none.insert f.entry.toNat)
  else .ok none

/-- Whether control can reach the block. -/
def isReachable (f : Func) (b : BlockId) : Checked Bool := do
  return (← f.reachable).containsInt b

/-- The blocks that control cannot reach, ascending. -/
def unreachableBlocks (f : Func) : Checked (List BlockId) := do
  let seen ← f.reachable
  return ((List.range f.blocks.length).filter (!seen.contains ·)).map Int.ofNat

end MirBackend.Func
