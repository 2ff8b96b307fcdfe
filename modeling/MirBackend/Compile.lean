/-
Compiling a module: checks, the passes of a pipeline, code for a target.

Both `optimize` and `compile` answer with the module as they leave it, also
when they end in an error or halt.
-/
import MirBackend.Asm.Generator
import MirBackend.Disk
import MirBackend.Pass.Pipeline
import MirBackend.Source.Reader

namespace MirBackend

/-- What code is generated for. -/
inductive Target where
  | casm
  | unassigned (code : Int)
deriving DecidableEq, Repr

namespace Target

def text : Target → String
  | .casm => "casm"
  | .unassigned _ => "target?"

def ofCode : Int → Target
  | 0 => .casm
  | n => .unassigned n

/-- The target with the name. -/
def ofName? (s : String) : Option Target := [casm].find? (·.text == s)

/-- The error for a name that no target has. -/
def unknownName (s : String) : String := "unknown target: " ++ Text.quoteText s

end Target

structure Config where
  target : Target := .casm
  pipeline : Pipeline := .standard
  /-- Use the pipeline; otherwise the basic one. -/
  optimize : Bool := true
  validateInput : Bool := true
  validateOutput : Bool := true
  validation : ValidationConfig := {}
  /-- The bound on rounds of the schedule; zero keeps its own. -/
  maxRounds : Int := 0
  sourceFile : String := ""

/-- The version that programs are marked with. -/
def version : String := "v0.1.0"

/-- Why a file gives no module. -/
inductive FileError where
  /-- There are no contents. -/
  | disk (name : String) (error : DiskError)
  /-- The contents are no module. -/
  | source (name : String) (contents : List UInt8) (failure : Source.Failure)

def FileError.message : FileError → String
  | .disk n e => underHeading "read file" (e.message n)
  | .source n contents e => underHeading n (e.message contents)

inductive CompileError where
  | input (error : InvalidModule)
  | output (error : InvalidModule)
  | phisLeft (func : String) (count : Nat)
  | pipeline (pipeline : Pipeline) (error : PassError)
  | noPipeline (pipeline : Pipeline)
  | codegen (error : Asm.CodegenError)
  | noTarget (target : Target)
  | file (error : FileError)

namespace CompileError

def message : CompileError → String
  | .input e => underHeading "input" e.message
  | .output e => underHeading "output" e.message
  | .phisLeft f n => "output: func " ++ f ++ ": " ++ toString n ++ " phis left"
  | .pipeline p e => underHeading (p.text ++ " pipeline") e.message
  | .noPipeline p => p.unsupported
  | .codegen e => underHeading "casm" e.message
  | .noTarget t => "unsupported target: " ++ t.text
  | .file e => underHeading "parse" e.message

end CompileError

namespace Compile

-- ================================================================== checks

/-- The input is valid and in single-assignment form. -/
def checkInput (m : Module) : Except (Stop CompileError) Unit := do
  mapError .input m.validate
  m.functions.forM fun f => mapError (fun e => .input (.inFunc f.name e)) do
    f.validate
    f.validateSSA

/-- The output is valid and without phis. -/
def checkOutput (m : Module) : Except (Stop CompileError) Unit :=
  m.functions.forM fun f => do
    mapError (fun e => .output (.inFunc f.name e)) f.validate
    let n ← liftChecked f.phiTotal
    if n ≠ 0 then throw (.fail (.phisLeft f.name n))

/-- What a check found. -/
def finding : Except (Stop CompileError) Unit → Checked (Option CompileError)
  | .ok () => .ok none
  | .error (.fail e) => .ok (some e)
  | .error (.halt h) => .error h

-- ================================================================= running

/-- The pipeline that a configuration selects. -/
def pipelineOf (cfg : Config) : Pipeline :=
  if cfg.optimize then cfg.pipeline else .basic

/-- Run the schedule of a pipeline and check what comes out. -/
def runPipeline (cfg : Config) (s : Schedule) (m : Module) :
    Changing Module (Module × Option CompileError) := do
  let s := if cfg.maxRounds
      = 0 then s else { s with maxRounds := cfg.maxRounds }
  let o ← s.runModule m
  match o.error with
  | some e => return (o.state, some (.pipeline (pipelineOf cfg) e))
  | none =>
      if cfg.validateOutput then
        return (o.state, ← given o.state (finding (checkOutput o.state)))
      else return (o.state, none)

/-- Run the configured pipeline over a module. -/
def optimize (cfg : Config) (m : Module) :
    Changing Module (Module × Option CompileError) := do
  let bad ← if cfg.validateInput then given m (finding (checkInput m)) else pure none
  match bad with
  | some e => return (m, some e)
  | none => match (pipelineOf cfg).schedule? cfg.validation with
    | none => return (m, some (.noPipeline (pipelineOf cfg)))
    | some s => runPipeline cfg s m

/-- Run the configured pipeline over a module and generate code. -/
def compile (cfg : Config) (m : Module) :
    Changing Module (Module × Except CompileError Asm.Program) := do
  let (m, error) ← optimize cfg m
  match error with
  | some e => return (m, .error e)
  | none => match cfg.target with
    | .casm => match Asm.generate m ⟨cfg.sourceFile, version⟩ with
      | .ok p => return (m, .ok p)
      | .error (.fail e) => return (m, .error (.codegen e))
      | .error (.halt h) => throw ⟨h, m⟩
    | .unassigned _ => return (m, .error (.noTarget cfg.target))

-- =================================================================== files

/-- The module of a file. -/
def moduleOf (d : Disk) (name : String) : Except FileError Module :=
  match d.read name with
  | .error e => .error (.disk name e)
  | .ok bytes => match Source.readModule bytes with
    | .ok m => .ok m
    | .error e => .error (.source name bytes e)

/-- Compile a file. -/
def compileFile (cfg : Config) (d : Disk) (name : String) :
    Checked (Except CompileError Asm.Program) := do
  match moduleOf d name with
  | .error e => return .error (.file e)
  | .ok m =>
      let cfg :=
        if cfg.sourceFile.isEmpty then { cfg with sourceFile := name } else cfg
      return (← settle (compile cfg m)).2

end Compile

end MirBackend
