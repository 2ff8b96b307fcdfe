/-
Edges between blocks.

The terminators say where control goes; the predecessor lists repeat the same
edges from the other end. The operations here change a terminator together
with the lists it touches. They do not presume that the two agree, so each can
be used on a graph in any state: an edge to a block that is not there is a
fault, which leaves the edges before it changed, and removing an edge that is
not listed changes nothing.

An edge is *critical* when its source has several successors and its target
several predecessors. Splitting it puts an empty block in between, and the
phis of the target then name the new block as their source.
-/
import MirBackend.Func

namespace MirBackend

namespace Func

-- ============================================================ single edges

/-- The successors of a block. -/
def successors (f : Func) (b : BlockId) : Checked (List BlockId) := do
  return (← f.block b).targets

/-- List `source` among the predecessors of `target`. -/
def connect (f : Func) (source target : BlockId) : Changing Func Func := do
  let f ← f.updateBlock target (·.addPred source)
  return f.record (.connect ⟨source, target⟩)

/-- Strike `source` from the predecessors of `target`. -/
def disconnect (f : Func) (source target : BlockId) : Changing Func Func := do
  let f ← f.updateBlock target (·.removePred source)
  return f.record (.disconnect ⟨source, target⟩)

/-- Replace the terminator of a block. The old targets that exist lose the block
as a predecessor, then the new ones gain it. -/
def setTerm (f : Func) (b : BlockId) (t : Option Terminator) :
    Changing Func Func := do
  let old := (← given f (f.block b)).targets
  let f ← (old.filter f.hasBlock).foldlM (fun f s => f.disconnect b s) f
  let f := f.modifyBlock b fun blk => { blk with term := t }
  (targetsOf t).foldlM (fun f s => f.connect b s) f

/-- Redirect the edge from `source` to `old` so that it goes to `new`. -/
def redirectEdge (f : Func) (source old new : BlockId) :
    Changing Func Func := do
  let f ← f.updateBlock source fun b =>
    { b with term := b.term.map (·.redirect old new) }
  let f ← f.disconnect source old
  f.connect source new

/-- Rebuild every predecessor list from the terminators. -/
def recomputePreds (f : Func) : Changing Func Func := do
  let bs ← given f f.present
  let bare := (f.mapBlocks fun b => { b with preds := [] }).record .clear
  bs.zipIdx.foldlM
    (fun f (b, i) => b.targets.foldlM (fun f s => f.connect i s) f) bare

-- ========================================================== critical edges

/-- Whether the edge leaves a block with several successors for one with several
predecessors. -/
def isCritical (f : Func) (source target : BlockId) : Checked Bool := do
  if (← f.successors source).length > 1 then
    return (← f.block target).preds.length > 1
  else
    return false

/-- Rename a source block in a phi. -/
def renameSource (old new : BlockId) : Instr → Instr
  | .phi d t ss =>
      .phi d t
        (ss.map fun s => if s.block = old then { s with block := new } else s)
  | i => i

/-- The name of the block that splits an edge. -/
def splitName (source target : BlockId) : String :=
  "edge_" ++ toString source ++ "_" ++ toString target

/-- Put a block that only jumps on between `source` and `target`, and let the
phis of `target` name it instead of `source`. -/
def splitEdge (f : Func) (source target : BlockId) :
    Changing Func (BlockId × Func) := do
  let mid : BlockId := f.blocks.length
  let b : Block :=
    { name := splitName source target, term := some (.jump target), filled := true,
      closed := true }
  let f := { f with blocks := f.blocks ++ [some b] }
  let f ← f.redirectEdge source target mid
  let f ← f.connect mid target
  let f := f.modifyBlock target fun b =>
    { b with instrs := b.instrs.map (renameSource source mid) }
  return (mid, f)

/-- The critical edges, by source and then in the order of the terminator. -/
def criticalEdges (f : Func) : Checked (List Edge) := do
  let outgoing ← (List.range f.blocks.length).mapM fun (i : Nat) => do
    let succs ← f.successors i
    let edges ← succs.filterM fun t => f.isCritical i t
    return edges.map fun t => (⟨i, t⟩ : Edge)
  return outgoing.flatten

/-- Split every edge that is critical at the start; the answer pairs each with
its new block. -/
def splitCriticalEdges (f : Func) :
    Changing Func (List (Edge × BlockId) × Func) := do
  (← given f f.criticalEdges).foldlM
    (fun (done, f) e => do
      let (mid, f) ← f.splitEdge e.source e.target
      return (done ++ [(e, mid)], f))
    ([], f)

end Func

end MirBackend
