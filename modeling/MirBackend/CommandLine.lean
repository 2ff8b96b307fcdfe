/-
The command line.

Two commands read files and write one text: `compile` the programs of the
files, `dump` their modules after the passes. Flags may stand before, between
and after the names of files; a later flag overrides an earlier one, and `--`
ends the flags. The value of a flag stands in the same argument behind an equals
sign or a blank, or is the next argument. The first error ends a run, and then
nothing is written.

A run is a function of its arguments and a disk.
-/
import MirBackend.Compile

namespace MirBackend.CommandLine

-- =================================================================== flags

inductive Command where
  | compile
  | dump
deriving DecidableEq, Repr

namespace Command

def text : Command → String
  | .compile => "compile"
  | .dump => "dump"

/-- The command with the name. -/
def ofName? (s : String) : Option Command := [compile, dump].find? (·.text == s)

end Command

/-- What a run is asked to do. -/
structure Request where
  command : Command
  files : List String := []
  pipeline : String := "standard"
  noOpt : Bool := false
  noValidate : Bool := false
  maxRounds : Int := 0
  target : String := "casm"
  format : String := "json"
  output : String := ""
  raw : Bool := false
deriving DecidableEq, Repr

/-- What is wrong with the arguments. -/
inductive UsageError where
  | noCommand
  | unknownCommand (name : String)
  | unknownFlag (name : String)
  | noValue (flag : String)
  | badValue (flag value : String)
deriving DecidableEq, Repr

def UsageError.message : UsageError → String
  | .noCommand => "command expected"
  | .unknownCommand n => "unknown command: " ++ Text.quoteText n
  | .unknownFlag n => "unknown flag: " ++ Text.quoteText n
  | .noValue n => "flag " ++ n ++ ": value expected"
  | .badValue n v => "flag " ++ n ++ ": bad value: " ++ Text.quoteText v

/-- The flag that an argument names behind its dashes, and the value written in
the same argument. A lone dash names a file. -/
def flagOf? (arg : String) : Option (String × Option String) :=
  match arg.toList with
  | '-' :: c :: cs =>
      let body := (c :: cs).dropWhile (· == '-')
      let ends := fun (c : Char) => c == '=' || c == ' '
      let name := String.ofList (body.takeWhile (!ends ·))
      match body.dropWhile (!ends ·) with
      | _ :: value => some (name, some (String.ofList value))
      | [] => some (name, none)
  | _ => none

/-- The spellings of a truth value, in letters of either case. A value that is
left empty switches on. -/
def switch? (s : String) : Option Bool :=
  let s := s.toLower
  if ["", "1", "t", "true", "y", "yes", "on"].contains s then some true
  else if ["0", "f", "false", "n", "no", "off"].contains s then some false
  else none

/-- The value of digits in a base; none for no digits or others. -/
def digits? (base : Nat) (cs : List Char) : Option Nat :=
  if cs.isEmpty then none
  else cs.foldlM (fun n c => do
    let d ← Text.hexValue? (UInt8.ofNat (min c.toNat 255))
    if d < base then some (n * base + d) else none) 0

/-- Read an integer: an optional sign and digits, decimal unless they are marked
otherwise. -/
def integer? (s : String) : Option Int :=
  match s.toList with
  | '+' :: cs => Int.ofNat <$> natural? cs
  | '-' :: cs => (fun n : Nat => -(n : Int)) <$> natural? cs
  | cs => Int.ofNat <$> natural? cs
where
  natural? : List Char → Option Nat
    | '0' :: 'x' :: cs => digits? 16 cs
    | '0' :: 'o' :: cs => digits? 8 cs
    | '0' :: 'b' :: cs => digits? 2 cs
    | cs => digits? 10 cs

/-- Whether a flag of the command is a switch, which needs no value; none for
other flags. -/
def isSwitch? (c : Command) (flag : String) : Option Bool :=
  if ["no-opt", "no-validate"].contains flag then some true
  else if ["pipeline", "p", "max-iter", "verbosity",
    "v"].contains flag then some false
  else match c with
    | .compile =>
        if ["target", "format", "f", "output",
          "o"].contains flag then some false else none
    | .dump => if flag == "raw" then some true else none

/-- Set what a flag stands for. -/
def Request.set (r : Request) (flag value : String) :
    Except UsageError Request :=
  let asSwitch : Except UsageError Bool := match switch? value with
    | some b => .ok b
    | none => .error (.badValue flag value)
  match flag with
  | "pipeline" | "p" => .ok { r with pipeline := value }
  | "target" => .ok { r with target := value }
  | "format" | "f" => .ok { r with format := value }
  | "output" | "o" => .ok { r with output := value }
  | "no-opt" => return { r with noOpt := ← asSwitch }
  | "no-validate" => return { r with noValidate := ← asSwitch }
  | "raw" => return { r with raw := ← asSwitch }
  | "max-iter" => match integer? value with
    | some n => .ok { r with maxRounds := n }
    | none => .error (.badValue flag value)
  | _ => .ok r

/-- Read the arguments behind the command. -/
def readArgs (r : Request) : List String → Except UsageError Request
  | [] => .ok r
  | arg :: rest =>
      if arg == "--" then .ok { r with files := r.files ++ rest }
      else match flagOf? arg with
        | none => readArgs { r with files := r.files ++ [arg] } rest
        | some (flag, value) => match isSwitch? r.command flag, value, rest with
          | none, _, _ => .error (.unknownFlag flag)
          | some _, some v, rest => do readArgs (← r.set flag v) rest
          | some true, none, rest => do readArgs (← r.set flag "true") rest
          | some false, none, v :: rest => do readArgs (← r.set flag v) rest
          | some false, none, [] => .error (.noValue flag)

/-- Read all arguments: flags of the whole program, the command, the rest. -/
def parse : List String → Except UsageError Request
  | [] => .error .noCommand
  | arg :: rest => match flagOf? arg with
    | none => match Command.ofName? arg with
      | some command => readArgs { command } rest
      | none => .error (.unknownCommand arg)
    | some (flag, value) =>
        if flag ≠ "verbosity" ∧ flag ≠ "v" then .error (.unknownFlag flag)
        else match value, rest with
          | some _, rest => parse rest
          | none, _ :: rest => parse rest
          | none, [] => .error (.noValue flag)

-- ================================================================= running

/-- Why a command failed. -/
inductive CommandError where
  | noPipeline (name : String)
  | noTarget (name : String)
  | noFormat (name : String)
  | compile (file : String) (error : CompileError)
  | parse (file : String) (error : FileError)
  | optimize (file : String) (error : CompileError)
  | print (file : String) (error : Source.PrintError)
  | unwritable (file : String) (error : DiskError)

def CommandError.message : CommandError → String
  | .noPipeline n => Pipeline.unknownName n
  | .noTarget n => Target.unknownName n
  | .noFormat n => "unknown format: " ++ Text.quoteText n
  | .compile f e => underHeading ("compile " ++ f) e.message
  | .parse f e => underHeading ("parse " ++ f) e.message
  | .optimize f e => underHeading ("optimize " ++ f) e.message
  | .print f e => underHeading ("format " ++ f) e.message
  | .unwritable f e => underHeading "write output" (e.message f)

/-- Steps of a command. -/
abbrev Running := Except (Stop CommandError)

def fail {α : Type} (e : CommandError) : Running α := .error (.fail e)

/-- An answer or a reason to fail. -/
def orFail {ε α : Type} (g : ε → CommandError) : Except ε α → Running α
  | .ok a => .ok a
  | .error e => fail (g e)

/-- The configuration that the flags ask for. -/
def Request.config (r : Request) : Running Config :=
  match Pipeline.ofName? r.pipeline with
  | none => fail (.noPipeline r.pipeline)
  | some pipeline =>
      return { pipeline, optimize := !r.noOpt, maxRounds := r.maxRounds,
               validateInput := !r.noValidate, validateOutput := !r.noValidate }

/-- The program of one file, as a listing or as JSON. -/
def compileFile (cfg : Config) (listing : Bool) (d : Disk) (file : String) :
    Running String := do
  let compiled ← liftChecked (Compile.compileFile cfg d file)
  let p ← orFail (.compile file) compiled
  return if listing then p.listing else p.json.indented "" ++ "\n"

/-- The module of one file, after the passes unless it is wanted raw. -/
def dumpFile (cfg : Config) (raw : Bool) (d : Disk) (file : String) :
    Running String := do
  let m ← orFail (.parse file) (Compile.moduleOf d file)
  if raw then mapError (.print file) (Source.moduleText m)
  else
    let (m, error) ← liftChecked (settle (Compile.optimize cfg m))
    match error with
    | some e => fail (.optimize file e)
    | none => mapError (.print file) (Source.moduleText m)

/-- The text that a request asks for. -/
def Request.text (r : Request) (d : Disk) : Running String := do
  let cfg ← r.config
  match r.command with
  | .compile => match Target.ofName? r.target with
    | none => fail (.noTarget r.target)
    | some target =>
        if r.format ≠ "json" ∧ r.format ≠ "listing" then fail (.noFormat r.format)
        else
          let texts ← r.files.mapM
            (compileFile { cfg with target } (r.format == "listing") d)
          return String.join texts
  | .dump => return String.join (← r.files.mapM (dumpFile cfg r.raw d))

/-- The end of a run. -/
inductive Reply where
  /-- The text went to standard output, or to a file and nothing to standard
  output. -/
  | done (stdout : String)
  | misused (error : UsageError)
  | failed (command : Command) (error : CommandError)
  | halted (reason : Halt)

namespace Reply

/-- The exit code. -/
def exitCode : Reply → UInt32
  | .done _ => 0
  | .misused _ | .failed .. => 1
  | .halted _ => 2

def stdout : Reply → String
  | .done text => text
  | _ => ""

/-- The line that reports an error. -/
def errorLine? : Reply → Option String
  | .misused e => some ("error: " ++ e.message)
  | .failed c e => some ("error: " ++ c.text ++ ": " ++ e.message)
  | .done _ | .halted _ => none

end Reply

/-- The reply to a request whose text could not be made. -/
def stopped (c : Command) : Stop CommandError → Reply
  | .fail e => .failed c e
  | .halt h => .halted h

/-- Run the program on a disk. -/
def run (args : List String) (d : Disk) : Reply × Disk :=
  match parse args with
  | .error e => (.misused e, d)
  | .ok r => match r.text d with
    | .error e => (stopped r.command e, d)
    | .ok text =>
        if r.output.isEmpty then (.done text, d)
        else match d.write r.output (Text.bytesOf text) with
          | .ok d => (.done "", d)
          | .error e => (.failed r.command (.unwritable r.output e), d)

end MirBackend.CommandLine
