/-
A cheap cleanup before anything else.

It removes, in this order, computations whose result nobody reads, stores into
frame memory that nobody reads, and frame memory that nobody uses. Frame
memory counts as unread when all its uses are the addresses of stores and it
does not *escape*: its address is neither passed to a call nor taken again.
-/
import MirBackend.Pass.DeadCode

namespace MirBackend.FrameCleanup

/-- The frame memory that a function allocates, by the value of its address. -/
def allocations (f : Func) : Checked (List ValueId) := do
  return (← f.present).flatMap fun b => b.instrs.filterMap fun
    | .frameAlloc d _ => some d
    | _ => none

/-- Values passed to calls or having their address taken. -/
def exposed (f : Func) : Checked (List ValueId) := do
  return (← f.present).flatMap fun b => b.instrs.flatMap fun
    | .call _ _ args _ => Operand.ids args
    | .addressOf _ v => [v]
    | _ => []

/-- Each allocation with whether it escapes, by ascending value. -/
def escaping (f : Func) : Checked (Std.ExtTreeMap ValueId Bool) := do
  let out ← exposed f
  return (← allocations f).foldl (fun m a => m.insert a (out.contains a)) ∅

/-- The addresses of stores, one for each store. -/
def storeAddresses (f : Func) : List ValueId :=
  f.blocks.flatMap fun b => b.elim [] fun b => b.instrs.filterMap fun
    | .store (.value a) _ _ => some a
    | _ => none

/-- Whether a computation stays: its result is read, or it is of a kind left
alone here. -/
def keepsValue (reads : List ValueId) : Instr → Bool
  | .binary _ d _ _ | .unary _ d _ | .assign d _ _ | .load d _ _ =>
    reads.contains d
  | _ => true

/-- Whether a store stays: it does not go to unread frame memory. -/
def keepsStore (dead : List ValueId) : Instr → Bool
  | .store (.value a) _ _ => !dead.contains a
  | _ => true

/-- Whether an allocation stays: its address is read. -/
def keepsAlloc (reads : List ValueId) : Instr → Bool
  | .frameAlloc d _ => reads.contains d
  | _ => true

/-- Frame memory that does not escape and whose every use is the address of a
store. -/
def unreadMemory (f : Func) : Checked (List ValueId) := do
  let reads ← f.reads
  let escapes ← escaping f
  let stores := storeAddresses f
  return (← allocations f).filter fun a =>
    !escapes.getD a false && reads.count a == stores.count a

/-- One removal after a test is known; whether anything was removed. -/
def dropBy (keep : Instr → Bool) (f : Func) : Bool × Func :=
  (f.anyDropped keep, f.keepInstrs keep)

/-- The three removals; whether any of them changed the function. -/
def run (f : Func) : Changing Func (Bool × Func) := do
  let (values, f) := dropBy (keepsValue (← given f f.reads)) f
  let (stores, f) := dropBy (keepsStore (← given f (unreadMemory f))) f
  let (allocs, f) := dropBy (keepsAlloc (← given f f.reads)) f
  return (values || stores || allocs, f)

end MirBackend.FrameCleanup
