/-
From a module without phis to a program.

A function is laid out, its static addresses are found, its blocks get labels,
and then code is selected block by block, the entry first. Block labels are
the names of function and block joined; a label that is taken, or a block
without name, gets the block's number appended, and if that is taken too a
further number.
-/
import MirBackend.Asm.Link
import MirBackend.Asm.Select

namespace MirBackend.Asm

namespace Generator

-- ======================================================== static addresses

/-- Addresses known at the start: frame allocations and taken addresses. -/
def seed (l : Layout) (static : Std.ExtTreeMap ValueId Int32) :
    Instr → Except Cause (Std.ExtTreeMap ValueId Int32)
  | .frameAlloc d _ => match l.offset d with
    | .ok off => .ok (static.insert d off)
    | .error e => .error (.layout e)
  | .addressOf d v => match l.offset v with
    | .ok off => .ok (static.insert d off)
    | .error e => .error (.layout e)
  | _ => .ok static

/-- What an instruction derives an address from, if it does: its result, the
address, the distance. -/
def derivation : Instr → Option (ValueId × ValueId × Int32)
  | .elementPtr d (.value b) off => off.imm?.map (d, b, ·)
  | .assign d (.value b) _ | .cast d (.value b) _ _ => some (d, b, 0)
  | _ => none

/-- Add the address that an instruction derives from a static one. A value with
several definitions is not static by derivation. -/
def derive (defs : List ValueId)
    (acc : Std.ExtTreeMap ValueId Int32 × Bool) (i : Instr) :
    Std.ExtTreeMap ValueId Int32 × Bool :=
  match derivation i with
  | none => acc
  | some (d, b, off) => match acc.1[b]? with
    | none => acc
    | some a =>
        if defs.count d = 1 && !acc.1.contains
          d then (acc.1.insert d (a + off), true) else acc

/-- Add derived addresses in sweeps until one adds none, at most `fuel` of
them. -/
def deriveAll (defs : List ValueId) (is : List Instr) :
    Nat → Std.ExtTreeMap ValueId Int32 → Std.ExtTreeMap ValueId Int32
  | 0, static => static
  | fuel + 1, static =>
      let (static, changed) := is.foldl (derive defs) (static, false)
      if changed then deriveAll defs is fuel static else static

/-- The static addresses of a function with the given instructions. -/
def staticAddresses (l : Layout) (is : List Instr) :
    Except Cause (Std.ExtTreeMap ValueId Int32) := do
  let static ← is.foldlM (seed l) ∅
  return deriveAll (is.flatMap Instr.dests) is (is.length + 1) static

-- ================================================================== labels

/-- Take the first free name among `base`, `base_1`, `base_2` and so on, in at
most `fuel` tries. -/
def numberedLabel (base : String) : Nat → Nat → Emit String
  | 0, _ => return base
  | fuel + 1, k => do
      let name := if k = 0 then base else base ++ "_" ++ toString k
      if ← Builder.claim name then return name
        else numberedLabel base fuel (k + 1)

/-- The label of a block. -/
def blockLabel (f : Func) (b : Block) (i : Nat) : Emit String := do
  let base := f.name ++ "_" ++ b.name
  let tries := match (← get).taken with
    | some names => names.size
    | none => 0
  if b.name.isEmpty then numberedLabel (base ++ "_" ++ toString i) (tries + 1) 0
  else if ← Builder.claim base then return base
  else numberedLabel (base ++ "_" ++ toString i) (tries + 1) 0

-- =============================================================== functions

/-- The entry, then the other blocks in order. -/
def blockOrder (f : Func) : List BlockId :=
  f.entry :: ((List.range f.blocks.length).map Int.ofNat).filter (· ≠ f.entry)

/-- The code of one block. -/
def block (x : Scope) (b : Block) (label : String) : Emit Unit := do
  Builder.label label
  b.instrs.zipIdx.forM fun (i, j) => under ("instr " ++ toString j) (x.instr i)
  under "terminator" (x.term b.term)

/-- The code of blocks in order; each knows which comes next. -/
def blocks (x : Scope) : List BlockId → Emit Unit
  | [] => pure ()
  | id :: rest => do
      let b ← need (x.func.block? id)
      let label ← need x.labels[id.toNat]?
      under ("block " ++ label)
        (block { x with next := rest.headD noBlock } b label)
      blocks x rest

/-- Everything that is emitted for a function, in a builder with its layout. -/
def body (m : Module) (f : Func) : Emit Unit := do
  let l ← need (← get).layout
  let bs ← need (f.blocks.mapM id)
  let static ← match staticAddresses l (bs.flatMap (·.instrs)) with
    | .ok s => pure s
    | .error c => failWith c
  let labels ← bs.zipIdx.mapM fun (b, i) => blockLabel f b i
  Builder.label f.name
  blocks { module := m, func := f, static, labels } (blockOrder f)
  let l ← need (← get).layout
  if l.frameSize > Layout.maxFrame then failWith (.frameTooLarge l.frameSize)

/-- What is said about the slots of parameters or results: nothing if there are
none. -/
def slotCounts (ns : List Int64) : SlotCounts :=
  if ns.isEmpty then none else some ns

/-- The builder of one function. The set of taken labels goes from one function
to the next. -/
def function (m : Module) (taken : Std.ExtTreeSet String) (f : Func) :
    Except (Stop CodegenError) Builder := do
  let phis ← liftChecked f.phiTotal
  if phis ≠ 0 then throw (.fail (.cause (.phisLeft phis)))
  let l ← mapError (fun e => .cause (.layout e)) (Layout.compute f)
  let b : Builder :=
    { func := f.name, layout := some l, taken := some taken,
      args := slotCounts (f.params.map l.slots), returns :=
        slotCounts (f.returns.map Ty.slots) }
  match body m f b with
  | .ok () b => return b
  | .error e _ => throw e

/-- The labels taken before any function is generated: the names of the
functions. -/
def initialLabels (m : Module) : Std.ExtTreeSet String :=
  m.functions.foldl (fun s f => s.insert f.name) ∅

/-- The builders of functions, one after the other. -/
def functions (m : Module) :
    List Func → Std.ExtTreeSet String → Except
      (Stop CodegenError) (List Builder)
  | [], _ => .ok []
  | f :: fs, taken => do
      let b ← mapError (.within ("func " ++ f.name)) (function m taken f)
      return b :: (← functions m fs (b.taken.getD taken))

end Generator

/-- Generate the program of a module. -/
def generate (m : Module) (metadata : Metadata := {}) :
    Except (Stop CodegenError) Program := do
  let bs ← Generator.functions m m.functions (Generator.initialLabels m)
  match link bs with
  | .error e => throw (.fail (.within "link" e))
  | .ok p => return { p with metadata }

end MirBackend.Asm
