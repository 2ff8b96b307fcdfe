/-
The dominator tree.

A block dominates another when every path from the entry to the other passes
through it. The tree maps each reachable block but the entry to its immediate
dominator. It is found by iteration: sweeps over the blocks in reverse
post-order set a block's entry to the nearest common ancestor, in the tree so
far, of its predecessors that are already in the tree, until a sweep changes
nothing. Ancestors are compared by their place in the order, so climbing from
two blocks to their common ancestor takes no more steps than the two have
places.
-/
import MirBackend.Dominance.Order

namespace MirBackend.Dominance

/-- Each block with its immediate dominator. -/
abbrev Tree := Std.ExtTreeMap BlockId BlockId

namespace Tree

-- ============================================================ construction

/-- Climb from two blocks until they meet: the one later in the order moves to
its parent. -/
def meet (order : List BlockId) (t : Tree) : Nat → BlockId → BlockId → BlockId
  | 0, a, _ => a
  | fuel + 1, a, b =>
      if a = b then a
      else if order.idxOf a > order.idxOf b then meet order t fuel
        (t.getD a 0) b
      else meet order t fuel a (t.getD b 0)

/-- The nearest common ancestor of the predecessors that are in the tree. -/
def commonAncestor (order : List BlockId) (t : Tree)
    (preds : List BlockId) : Option BlockId :=
  (preds.filter t.contains).foldl (fun acc p =>
    match acc with
    | none => some p
    | some a => some (meet order t (2 * order.length + 1) p a)) none

/-- Recompute one block's parent; the flag says whether a change was made. -/
def refine (f : Func) (order : List BlockId) : Tree × Bool → BlockId →
    Checked (Tree × Bool)
  | (t, changed), b => do
      match commonAncestor order t (← f.block b).preds with
      | none => return (t, changed)
      | some a =>
          if t[b]? = some a then return (t, changed)
          else return (t.insert b a, true)

/-- Sweeps until one changes nothing, at most `fuel` of them. -/
def sweeps (f : Func) (order : List BlockId) : Nat → Tree → Checked Tree
  | 0, t => .ok t
  | fuel + 1, t => do
      let (t, changed) ← order.tail.foldlM (refine f order) (t, false)
      if changed then sweeps f order fuel t else return t

/-- The dominator tree of a function. The entry and unreachable blocks have no
parent. -/
def compute (f : Func) : Checked Tree := do
  match ← reversePostOrder f with
  | [] => return ∅
  | entry :: rest =>
      let order := entry :: rest
      let t ← sweeps f order (order.length * order.length + 2)
        ((∅ : Tree).insert entry entry)
      return t.erase entry

-- ================================================================= queries

/-- Climb at most `fuel` parents from `b`, looking for `a`. -/
def climbsTo (t : Tree) (a : BlockId) : Nat → BlockId → Bool
  | 0, _ => false
  | fuel + 1, b =>
      if a = b then true
      else match t[b]? with
        | none => false
        | some d => climbsTo t a fuel d

/-- Whether `a` dominates `b`; every block dominates itself. -/
def dominates (t : Tree) (a b : BlockId) : Bool := t.climbsTo a (t.size + 1) b

/-- Whether `a` dominates `b` and is another block. -/
def strictlyDominates (t : Tree) (a b : BlockId) : Bool :=
  a != b && t.dominates a b

/-- The blocks that each block immediately dominates, ascending. -/
def children (t : Tree) (f : Func) : Std.ExtTreeMap BlockId (List BlockId) :=
  (List.range f.blocks.length).foldl (fun ch (i : Nat) =>
    match t[(i : BlockId)]? with
    | none => ch
    | some d => ch.insert d (ch.getD d [] ++ [(i : BlockId)])) ∅

end Tree

-- =============================================================== frontiers

/-- Each block with its dominance frontier. -/
abbrev Frontiers := Std.ExtTreeMap BlockId BitSet

namespace Frontiers

/-- Add a join to the frontiers of the blocks from `r` up to, not including,
`stop`. -/
def addUpTo (t : Tree) (stop : BlockId) (join : Nat) : Nat → BlockId →
    Frontiers → Frontiers
  | 0, _, df => df
  | fuel + 1, r, df =>
      if r = stop then df
      else
        let df := df.insert r ((df.getD r {}).insert join)
        match t[r]? with
        | none => df
        | some up => addUpTo t stop join fuel up df

/-- The frontier entries that one block causes as a join of several edges. -/
def addJoin (f : Func) (t : Tree) (df : Frontiers) (b : Block)
    (join : Nat) : Frontiers :=
  if b.preds.length < 2 then df
  else if t[(join : BlockId)]?.isNone && (join : BlockId) != f.entry then df
  else
    let stop := t.getD (join : BlockId) noBlock
    (b.preds.filter fun p => t.contains p || p == f.entry).foldl
      (fun df p => addUpTo t stop join (t.size + 1) p df) df

/-- The dominance frontiers: for each block, the joins where its dominance ends.
Blocks with an empty frontier have no entry. -/
def compute (f : Func) (t : Tree) : Checked Frontiers := do
  return (← f.present).zipIdx.foldl (fun df (b, i) => addJoin f t df b i) ∅

/-- The dominance frontier of a block, ascending. -/
def of (df : Frontiers) (b : BlockId) : List Nat := (df.getD b {}).toList

end Frontiers

end MirBackend.Dominance
