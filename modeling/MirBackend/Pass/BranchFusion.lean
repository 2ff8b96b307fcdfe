/-
Folding a test into the branch that uses it.

When the condition of a branch is computed in the same block by a comparison
for equality or by a negation, is read nowhere else, and nothing between the
computation and the branch redefines what it read, the branch can test the
operands itself and the computation goes. A comparison with zero becomes a
test of the other operand; equality with zero and negation swap the targets.

Reads are counted once, before the first change: folding moves a read from an
instruction to a terminator and leaves every other count as it was.
-/
import MirBackend.Func.Edges

namespace MirBackend.BranchFusion

/-- The operand that is compared with a literal zero. -/
def comparedToZero (l r : Operand) : Option Operand :=
  if r.isZero then some l else if l.isZero then some r else none

/-- The branch that tests what an instruction computed, for targets `t` and
`e`. -/
def fusedTerm (t e : BlockId) : Instr → Option Terminator
  | .binary .eq _ l r => match comparedToZero l r with
    | some x => some (.branch x e t)
    | none => some (.branchCmp .eq l r t e)
  | .binary .neq _ l r => match comparedToZero l r with
    | some x => some (.branch x t e)
    | none => some (.branchCmp .neq l r t e)
  | .binary .u32Eq _ l r => some (.branchCmp .u32Eq l r t e)
  | .binary .u32Neq _ l r => some (.branchCmp .u32Neq l r t e)
  | .unary .not _ x => some (.branch x e t)
  | _ => none

/-- A list around its last instruction that defines the value. -/
def splitAtLastDef (v : ValueId) : List Instr →
    Option (List Instr × Instr × List Instr)
  | [] => none
  | i :: is => match splitAtLastDef v is with
    | some (before, d, after) => some (i :: before, d, after)
    | none => if v ∈ i.dests then some ([], i, is) else none

/-- What a block becomes when its branch can be fused: its other instructions,
its terminator. -/
def fusion (reads : List ValueId) (b : Block) :
    Option (List Instr × Terminator) :=
  match b.term with
  | some (.branch (.value c) t e) =>
      if reads.count c = 1 then
        match splitAtLastDef c b.instrs with
        | none => none
        | some (before, d, after) =>
            if after.any fun i => i.dests.any (d.uses.contains ·) then none
            else (fusedTerm t e d).map fun term => (before ++ after, term)
      else none
  | _ => none

/-- Fuse the branch of one block if that can be done; the flag says whether any
was. -/
def fuseBlock (reads : List ValueId) (acc : Bool × Func) (b : BlockId) :
    Changing Func (Bool × Func) := do
  let (fused, f) := acc
  match fusion reads (← given f (f.block b)) with
  | none => return (fused, f)
  | some (instrs, term) =>
      let f := f.modifyBlock b fun blk => { blk with instrs }
      return (true, ← f.setTerm b (some term))

/-- Fuse every branch that can be; whether any was. -/
def run (f : Func) : Changing Func (Bool × Func) := do
  let reads ← given f f.reads
  ((List.range f.blocks.length).map Int.ofNat).foldlM (fuseBlock reads) (false, f)

end MirBackend.BranchFusion
