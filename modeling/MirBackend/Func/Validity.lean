/-
Checks on functions and modules.

`Func.validate` checks structure: every block is there and has a terminator,
the terminators and the predecessor lists describe the same edges, phis lead
their block and name predecessors only, the entry has none. The first
violation found, block by block, is the answer.

`Func.validateSSA` checks that every value is defined once and that every
value read is defined somewhere. `Module.validate` adds that calls name a
function and pass it as many arguments as it has parameters.
-/
import MirBackend.Func

namespace MirBackend

/-- What is wrong with a function. -/
inductive Invalid where
  | noEntry (entry : BlockId)
  | vacantBlock (block : BlockId)
  | noTerminator (block : BlockId) (name : String)
  | undefinedTarget (block target : BlockId)
  | unlistedPred (block succ : BlockId)
  | undefinedPred (block pred : BlockId)
  | falsePred (block pred : BlockId)
  | missingInstr (block : BlockId) (index : Nat)
  | latePhi (block : BlockId) (index : Nat)
  | undefinedSource (block : BlockId) (phi : ValueId) (source : BlockId)
  | foreignSource (block : BlockId) (phi : ValueId) (source : BlockId)
  | entryPhis
  | definedTwice (value : ValueId) (first second : BlockId)
  | undefinedUse (block : BlockId) (value : ValueId)
  | undefinedTermUse (block : BlockId) (value : ValueId)
deriving DecidableEq, Repr

def Invalid.message : Invalid → String
  | .noEntry b => "entry block " ++ blockText b ++ " does not exist"
  | .vacantBlock b => "block " ++ blockText b ++ " is nil"
  | .noTerminator b n => "block " ++ blockText b ++ " (" ++ n
      ++ "): no terminator"
  | .undefinedTarget b s =>
      "block " ++ blockText b ++ ": jump to undefined block " ++ blockText s
  | .unlistedPred b s =>
      "block " ++ blockText b
          ++ ": missing in preds of successor " ++ blockText s
  | .undefinedPred b p => "block " ++ blockText b
      ++ ": undefined pred " ++ blockText p
  | .falsePred b p =>
      "block " ++ blockText b ++ ": pred " ++ blockText p
          ++ " does not jump here"
  | .missingInstr b j => "block " ++ blockText b ++ ": instr "
      ++ toString j ++ ": nil"
  | .latePhi b j =>
      "block " ++ blockText b ++ ": instr " ++ toString j
          ++ ": phi after non-phi"
  | .undefinedSource b d s =>
      "block " ++ blockText b ++ ": phi " ++ valueText d
          ++ ": undefined source block "
        ++ blockText s
  | .foreignSource b d s =>
      "block " ++ blockText b ++ ": phi " ++ valueText d
          ++ ": source " ++ blockText s
        ++ " is not a pred"
  | .entryPhis => "entry block has phis"
  | .definedTwice v a b =>
      "value " ++ valueText v ++ " defined twice: in " ++ blockText a
          ++ " and " ++ blockText b
  | .undefinedUse b v => "block " ++ blockText b
      ++ ": use of undefined value " ++ valueText v
  | .undefinedTermUse b v =>
      "block " ++ blockText b
          ++ ": terminator uses undefined value " ++ valueText v

/-- A check: it passes, finds something wrong, or halts. -/
abbrev Check := Except (Stop Invalid) Unit

/-- The check fails with the violation unless the condition holds. -/
def require (ok : Bool) (e : Invalid) : Check :=
  if ok then .ok () else .error (.fail e)

/-- One check after the other; the first that does not pass is the answer. -/
def checkAll {α : Type} (check : α → Check) : List α → Check
  | [] => .ok ()
  | a :: as => do check a; checkAll check as

namespace Func

-- =============================================================== structure

/-- Each target exists and lists the block as a predecessor. -/
def checkTargets (f : Func) (id : BlockId) (b : Block) : Check :=
  checkAll (fun s => do
    require (f.hasBlock s) (.undefinedTarget id s)
    require ((← liftChecked (f.block s)).hasPred id) (.unlistedPred id s))
      b.targets

/-- Each listed predecessor exists and jumps to the block. -/
def checkPreds (f : Func) (id : BlockId) (b : Block) : Check :=
  checkAll (fun p => do
    require (f.hasBlock p) (.undefinedPred id p)
    require (id ∈ (← liftChecked (f.block p)).targets) (.falsePred id p))
      b.preds

/-- Each source of a phi exists and is a predecessor. -/
def checkSources (f : Func) (id : BlockId) (b : Block) (dest : ValueId)
    (sources : List PhiSource) : Check :=
  checkAll (fun s => do
    require (f.hasBlock s.block) (.undefinedSource id dest s.block)
    require (b.hasPred s.block) (.foreignSource id dest s.block)) sources

/-- The instruction at a position is there, and a phi stands among the leading
ones. -/
def checkInstr (f : Func) (id : BlockId) (b : Block) : Instr × Nat → Check
  | (.missing, j) => .error (.fail (.missingInstr id j))
  | (.phi d _ ss, j) => do
      require (j < b.phiCount) (.latePhi id j)
      f.checkSources id b d ss
  | _ => .ok ()

/-- All structural checks of one place in the block list. -/
def checkBlock (f : Func) : Option Block × Nat → Check
  | (none, i) => .error (.fail (.vacantBlock i))
  | (some b, i) => do
      require b.term.isSome (.noTerminator i b.name)
      f.checkTargets i b
      f.checkPreds i b
      checkAll (f.checkInstr i b) b.instrs.zipIdx

/-- The structural checks of a function. -/
def validate (f : Func) : Check := do
  require (f.hasBlock f.entry) (.noEntry f.entry)
  checkAll f.checkBlock f.blocks.zipIdx
  require ((← liftChecked (f.block f.entry)).phiCount == 0) .entryPhis

-- ======================================================= single definition

/-- The definitions seen so far: each value with the block that defines it. -/
abbrev Definitions := Std.ExtTreeMap ValueId BlockId

/-- Record definitions in a block; a second definition of a value is an
error. -/
def defineAll (id : BlockId) : List ValueId → Definitions →
    Except (Stop Invalid) Definitions
  | [], defs => .ok defs
  | d :: ds, defs => match defs[d]? with
    | some first => .error (.fail (.definedTwice d first id))
    | none => defineAll id ds (defs.insert d id)

/-- Record the definitions of the instructions of a block. -/
def defineBlock (id : BlockId) (b : Block) (defs : Definitions) :
    Except (Stop Invalid) Definitions :=
  b.instrs.foldlM (fun defs i => do
    let i ← liftChecked i.present
    defineAll id i.dests defs) defs

/-- Where every value of the function is defined; parameters belong to no
block. -/
def definitions (f : Func) : Except (Stop Invalid) Definitions :=
  f.blocks.zipIdx.foldlM (fun defs (b, i) => do
      defineBlock i (← liftChecked (orFault b)) defs)
    (f.params.foldl (fun defs p => defs.insert p noBlock) ∅)

/-- Every value read in a block is defined somewhere. -/
def checkReads (defs : Definitions) : Option Block × Nat → Check
  | (none, _) => .error (.halt .fault)
  | (some b, i) => do
      checkAll (fun ins => do
        let ins ← liftChecked ins.present
        checkAll (fun u => require (defs.contains u) (.undefinedUse i u))
            ins.uses) b.instrs
      checkAll (fun u => require (defs.contains u) (.undefinedTermUse i u))
        (usesOf b.term)

/-- Every value has one definition, and every value read has one. -/
def validateSSA (f : Func) : Check := do
  let defs ← f.definitions
  checkAll (checkReads defs) f.blocks.zipIdx

end Func

-- ================================================================= modules

/-- What is wrong with a module. -/
inductive InvalidModule where
  | inFunc (name : String) (error : Invalid)
  | undefinedCallee (name : String) (callee : FuncId)
  | argCount (name callee : String) (given wanted : Nat)
deriving DecidableEq, Repr

def InvalidModule.message : InvalidModule → String
  | .inFunc n e => underHeading ("func " ++ n) e.message
  | .undefinedCallee n c =>
    "func " ++ n ++ ": call to undefined function #" ++ toString c
  | .argCount n c given wanted =>
      "func " ++ n ++ ": call " ++ c ++ ": " ++ toString given ++ " args, want "
        ++ toString wanted

namespace Module

/-- A call names a function and passes it as many arguments as it has
parameters. -/
def checkCall (m : Module) (caller : String) :
    Instr → Except (Stop InvalidModule) Unit
  | .call _ callee args _ => match m.func? callee with
    | none => .error (.fail (.undefinedCallee caller callee))
    | some g =>
        if args.length = g.params.length then .ok ()
        else .error (.fail (.argCount caller g.name
            args.length g.params.length))
  | _ => .ok ()

/-- The checks of a module: each function's structure, then its calls. -/
def validate (m : Module) : Except (Stop InvalidModule) Unit :=
  m.functions.forM fun f => do
    mapError (.inFunc f.name) f.validate
    let bs ← liftChecked f.present
    bs.forM fun b => b.instrs.forM (m.checkCall f.name)

end Module

end MirBackend
