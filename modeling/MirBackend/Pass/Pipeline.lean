/-
The fixed schedules.

*basic* leaves single-assignment form and cleans up. *standard* cleans up
before that too and folds tests into branches. *aggressive* is the standard
schedule with each cleanup repeated until nothing changes.
-/
import MirBackend.Pass.Schedule
import MirBackend.Text.Quoted

namespace MirBackend

inductive Pipeline where
  | basic
  | standard
  | aggressive
  | unassigned (code : Int)
deriving DecidableEq, Repr

namespace Pipeline

def text : Pipeline → String
  | .basic => "basic"
  | .standard => "standard"
  | .aggressive => "aggressive"
  | .unassigned _ => "pipeline?"

def ofCode : Int → Pipeline
  | 0 => .basic
  | 1 => .standard
  | 2 => .aggressive
  | n => .unassigned n

def code : Pipeline → Int
  | .basic => 0
  | .standard => 1
  | .aggressive => 2
  | .unassigned n => n

/-- The pipeline with the name. -/
def ofName? (s : String) : Option Pipeline :=
  [basic, standard, aggressive].find? (·.text == s)

/-- The error for a name that no pipeline has. -/
def unknownName (s : String) : String :=
  "unknown pipeline: " ++ Text.quoteText s

/-- The steps of a pipeline; an unassigned number has none. -/
def steps? (p : Pipeline) (cfg : ValidationConfig) : Option (List Step) :=
  let checked := [Step.moduleValidation cfg, .pass (.validation cfg)]
  let cleanup := Step.pass (.conditional .frameCleanup .usesMemory)
  match p with
  | .basic => some (checked ++
      [.pass .phiRemoval, .pass .deadCode, .pass (.phiFreeValidation cfg)])
  | .standard => some (checked ++
      [cleanup, .pass .deadCode, .pass (.validation cfg), .pass .phiRemoval,
       .pass .branchFusion, .pass .deadCode, .pass (.phiFreeValidation cfg)])
  | .aggressive => some (checked ++
      [cleanup, .pass (.fixpoint [.deadCode] 0), .pass (.validation cfg),
       .pass .phiRemoval,
       .pass (.fixpoint [.branchFusion, .deadCode] 0),
         .pass (.phiFreeValidation cfg)])
  | .unassigned _ => none

/-- The schedule of a pipeline. -/
def schedule? (p : Pipeline) (cfg : ValidationConfig) : Option Schedule :=
  (p.steps? cfg).map fun steps => { steps }

/-- The error for a pipeline without schedule. -/
def unsupported (p : Pipeline) : String := "unsupported pipeline: " ++ p.text

end Pipeline

end MirBackend
