/-
Reverse post-order of the blocks reachable from the entry.

A depth-first walk with an explicit stack: each frame holds a block and the
successors it has still to look at. A block is numbered when its frame is
popped, and the list of popped blocks, latest first, is the reverse
post-order. Every turn of the walk either pops a frame or uses up a
successor, and a block has at most two of them, so three turns a block are
enough.
-/
import MirBackend.BitSet
import MirBackend.Func.Edges

namespace MirBackend.Dominance

/-- The state of the walk. -/
structure Walk where
  /-- Blocks being visited, innermost first, each with the successors left to
  look at. -/
  stack : List (BlockId × List BlockId)
  /-- Blocks ever put on the stack. -/
  seen : BitSet
  /-- Blocks done, the latest first. -/
  done : List BlockId

/-- One turn: pop a finished frame, skip a successor, or step into it. -/
def Walk.turn (f : Func) (w : Walk) : Checked Walk :=
  match w.stack with
  | [] => .ok w
  | (b, []) :: rest => .ok { w with stack := rest, done := b :: w.done }
  | (b, s :: ss) :: rest =>
      let here := { w with stack := (b, ss) :: rest }
      if f.hasBlock s && !w.seen.containsInt s then do
        let succs ← f.successors s
        return { here with stack := (s, succs) :: here.stack,
                           seen := w.seen.insert s.toNat }
      else .ok here

/-- Turns until the stack is empty, at most `fuel` of them. -/
def Walk.run (f : Func) : Nat → Walk → Checked (List BlockId)
  | 0, w => .ok w.done
  | fuel + 1, w =>
      if w.stack.isEmpty then .ok w.done
      else do (← w.turn f).run f fuel

/-- The blocks reachable from the entry, in reverse post-order. -/
def reversePostOrder (f : Func) : Checked (List BlockId) :=
  if f.hasBlock f.entry then do
    let succs ← f.successors f.entry
    let seen :=
      (BitSet.ofCapacity (Int64.ofNat f.blocks.length)).insert f.entry.toNat
    Walk.run f (3 * f.blocks.length) ⟨[(f.entry, succs)], seen, []⟩
  else .ok []

end MirBackend.Dominance
