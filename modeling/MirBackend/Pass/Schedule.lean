/-
Passes and the order in which they run.

A pass takes a function to another and says whether it changed it, or finds an
error. What a pass did before it found an error stays done, so an outcome
carries the function, the flag and the error side by side, and a halt carries
what the passes left. Passes may be made conditional, and may be repeated until
none of a group changes the function, with a bound on the rounds.

A schedule is a list of passes, some over the whole module. It runs over one
function, over one function until nothing changes, or over a module: then each
pass sees every function before the next pass starts.
-/
import MirBackend.Func.Validity
import MirBackend.Pass.BranchFusion
import MirBackend.Pass.DeadCode
import MirBackend.Pass.FrameCleanup
import MirBackend.Pass.PhiRemoval
import MirBackend.Source.Printer

namespace MirBackend

-- ================================================================== errors

/-- Why a pass or a schedule stopped. -/
inductive PassError where
  | invalid (error : Invalid)
  | invalidModule (error : InvalidModule)
  | phisLeft (count : Nat)
  | inPass (name : String) (error : PassError)
  | inFunc (name : String) (error : PassError)
  | inRound (round : Nat) (error : PassError)
deriving DecidableEq, Repr

def PassError.message : PassError → String
  | .invalid e => underHeading "invalid mir" e.message
  | .invalidModule e => underHeading "invalid mir" e.message
  | .phisLeft n => underHeading "invalid mir"
    (toString n ++ " phis after ssa destruction")
  | .inPass n e => underHeading n e.message
  | .inFunc n e => underHeading ("func " ++ n) e.message
  | .inRound n e => underHeading ("iteration " ++ toString n) e.message

-- ============================================================== validation

/-- What a validation checks and what becomes of its findings. -/
structure ValidationConfig where
  /-- Also require one definition a value and only defined values read. -/
  checkSSA : Bool := true
  /-- Print the function along with a finding. -/
  verbose : Bool := false
  /-- A finding is an error; otherwise it is only noted. -/
  fatal : Bool := true
deriving DecidableEq, Repr

namespace ValidationConfig

/-- What becomes of the outcome of a check. With `verbose` the function is
printed, which may halt on a function that has no written form. -/
def report (cfg : ValidationConfig) (f : Option Func) :
    Except (Stop PassError) Unit → Checked (Option PassError)
  | .ok () => .ok none
  | .error (.halt h) => .error h
  | .error (.fail e) => do
      if let some f := f then
        if cfg.verbose then
          if let .error (.halt h) := Source.funcText none f then throw h
      return if cfg.fatal then some e else none

/-- The checks of a function in single-assignment form. -/
def check (cfg : ValidationConfig) (f : Func) :
    Except (Stop PassError) Unit := do
  mapError .invalid f.validate
  if cfg.checkSSA then mapError .invalid f.validateSSA

/-- The checks of a function without phis. -/
def checkPhiFree (f : Func) : Except (Stop PassError) Unit := do
  mapError .invalid f.validate
  let n ← liftChecked f.phiTotal
  if n ≠ 0 then throw (.fail (.phisLeft n))

end ValidationConfig

-- ================================================================== passes

/-- When a conditional pass runs. -/
inductive Condition where
  | always
  | never
  | usesMemory
deriving DecidableEq, Repr

def Condition.holds (c : Condition) (f : Func) : Checked Bool :=
  match c with
  | .always => .ok true
  | .never => .ok false
  | .usesMemory => f.usesMemory

/-- A transformation of functions. -/
inductive Pass where
  | frameCleanup
  | deadCode
  | phiRemoval
  | branchFusion
  | validation (cfg : ValidationConfig)
  | phiFreeValidation (cfg : ValidationConfig)
  | conditional (pass : Pass) (condition : Condition)
  /-- The passes in turn, until a round changes nothing or `rounds` are done. -/
  | fixpoint (passes : List Pass) (rounds : Int)
deriving Repr

/-- How a pass or schedule left a function or module. -/
structure Outcome (σ : Type) where
  state : σ
  modified : Bool := false
  error : Option PassError := none

namespace Pass

mutual

/-- The name of a pass. -/
def name : Pass → String
  | .frameCleanup => "preopt"
  | .deadCode => "dce"
  | .phiRemoval => "ssa_destruction"
  | .branchFusion => "fuse_cmp_branch"
  | .validation _ => "validate"
  | .phiFreeValidation _ => "validate_post_ssa"
  | .conditional p _ => name p
  | .fixpoint ps _ => "fixpoint(" ++ ", ".intercalate (names ps) ++ ")"

/-- The names of passes. -/
def names : List Pass → List String
  | [] => []
  | p :: ps => name p :: names ps

end

/-- Rounds that are done when no other bound is given. -/
def defaultRounds : Nat := 10

/-- A bound on rounds; one that is not positive means the default. -/
def roundLimit (n : Int) : Nat := if n ≤ 0 then defaultRounds else n.toNat

/-- An outcome without error. -/
def changed : Changing Func (Bool × Func) → Changing Func (Outcome Func)
  | .ok (modified, f) => .ok ⟨f, modified, none⟩
  | .error h => .error h

/-- The outcome of a check, which changes nothing. -/
def found (f : Func) (finding : Checked (Option PassError)) :
    Changing Func (Outcome Func) := do
  return ⟨f, false, ← given f finding⟩

/-- Rounds of `body` until one changes nothing, fails, or the bound is
reached. -/
def rounds (body : Func → Changing Func (Outcome Func)) :
    Nat → Bool → Func → Changing Func (Outcome Func)
  | 0, modified, f => .ok ⟨f, modified, none⟩
  | n + 1, modified, f => do
      let o ← body f
      match o.error with
      | some e => return ⟨o.state, modified, some e⟩
      | none =>
          if o.modified then rounds body n true o.state
          else return ⟨o.state, modified, none⟩

mutual

/-- Run a pass. -/
def apply : Pass → Func → Changing Func (Outcome Func)
  | .frameCleanup, f => changed (FrameCleanup.run f)
  | .deadCode, f => changed (DeadCode.run f)
  | .phiRemoval, f => changed (PhiRemoval.run f)
  | .branchFusion, f => changed (BranchFusion.run f)
  | .validation cfg, f => found f (cfg.report (some f) (cfg.check f))
  | .phiFreeValidation cfg, f =>
      found f (cfg.report (some f) (ValidationConfig.checkPhiFree f))
  | .conditional p c, f => do
      if ← given f (c.holds f) then apply p f else return ⟨f, false, none⟩
  | .fixpoint ps n, f => rounds (fun f => applyAll ps f false)
    (roundLimit n) false f

/-- Run passes in turn, each error under the name of its pass. -/
def applyAll : List Pass → Func → Bool → Changing Func (Outcome Func)
  | [], f, modified => .ok ⟨f, modified, none⟩
  | p :: ps, f, modified => do
      let o ← apply p f
      match o.error with
      | some e => return ⟨o.state, modified, some (.inPass (name p) e)⟩
      | none => applyAll ps o.state (modified || o.modified)

end

/-- Run a pass; an error comes under its name. -/
def run (p : Pass) (f : Func) : Changing Func (Outcome Func) := do
  let o ← p.apply f
  return { o with error := o.error.map (.inPass p.name) }

end Pass

-- =============================================================== schedules

/-- A step of a schedule. -/
inductive Step where
  | pass (pass : Pass)
  /-- Checks of calls across functions. -/
  | moduleValidation (cfg : ValidationConfig)
deriving Repr

structure Schedule where
  steps : List Step := []
  /-- The bound on rounds of `runToFixpoint`. -/
  maxRounds : Int := Pass.defaultRounds

namespace Schedule

/-- The name of a step. -/
def stepName : Step → String
  | .pass p => p.name
  | .moduleValidation _ => "validate_module"

/-- The names of the steps in order. -/
def names (s : Schedule) : List String := s.steps.map stepName

/-- The passes over functions, in order. -/
def passes (s : Schedule) : List Pass :=
  s.steps.filterMap fun
    | .pass p => some p
    | .moduleValidation _ => none

/-- Run the passes over a function once. -/
def run (s : Schedule) (f : Func) : Changing Func (Outcome Func) :=
  Pass.applyAll s.passes f false

/-- How repeated runs left a function, and how many were started. -/
structure Rounds where
  func : Func
  count : Nat
  error : Option PassError := none

/-- Runs until one changes nothing, fails, or the bound is reached. -/
def repeatRun (s : Schedule) : Nat → Nat → Func → Changing Func Rounds
  | 0, count, f => .ok ⟨f, count, none⟩
  | n + 1, count, f => do
      let o ← s.run f
      let count := count + 1
      match o.error with
      | some e => return ⟨o.state, count, some (.inRound count e)⟩
      | none => if o.modified then s.repeatRun n count o.state else return ⟨o.state, count, none⟩

/-- Run the passes over a function until nothing changes or the bound is
reached. -/
def runToFixpoint (s : Schedule) (f : Func) : Changing Func Rounds :=
  s.repeatRun (Pass.roundLimit s.maxRounds) 0 f

/-- Run a pass over functions, one after the other; `done` are the ones
before. -/
def passOver (p : Pass) (done : List Func) (modified : Bool) :
    List Func → Changing Module (Outcome Module)
  | [] => .ok ⟨⟨done⟩, modified, none⟩
  | f :: fs => do
      let o ← inside (fun g => ⟨done ++ g :: fs⟩) (p.run f)
      match o.error with
      | some e => return ⟨⟨done ++ o.state :: fs⟩, modified,
          some (.inFunc f.name e)⟩
      | none => passOver p (done ++ [o.state]) (modified || o.modified) fs

/-- Run one step over a module. -/
def stepOver (m : Module) (modified : Bool) :
    Step → Changing Module (Outcome Module)
  | .pass p => passOver p [] modified m.functions
  | .moduleValidation cfg => do
      let error ← given m (cfg.report none (mapError .invalidModule m.validate))
      return ⟨m, modified, error.map (.inPass "validate_module")⟩

/-- Run steps over a module. -/
def runSteps : List Step → Bool → Module → Changing Module (Outcome Module)
  | [], modified, m => .ok ⟨m, modified, none⟩
  | s :: ss, modified, m => do
      let o ← stepOver m modified s
      match o.error with
      | some _ => return o
      | none => runSteps ss o.modified o.state

/-- Run every step over a module; each pass sees all functions before the next
starts. -/
def runModule (s : Schedule) (m : Module) : Changing Module (Outcome Module) :=
  runSteps s.steps false m

end Schedule

end MirBackend
