/-
The program: the command line on the files of the system.
-/
import MirBackend.CommandLine

namespace MirBackend.CommandLine

/-- The files that exist among those named. -/
def loadFiles (names : List String) : IO Disk := do
  let mut files := []
  for name in names do
    try
      let bytes ← IO.FS.readBinFile name
      files := (name, bytes.toList) :: files
    catch _ => pure ()
  return .ofFiles files

/-- Print the end of a run and give its exit code. -/
def finish (reply : Reply) : IO UInt32 := do
  IO.print reply.stdout
  if let some line := reply.errorLine? then IO.eprintln line
  if let .halted h := reply then IO.eprintln ("fault: " ++ h.message.getD "something is missing")
  return reply.exitCode

/-- Answer a request. -/
def serve (r : Request) : IO UInt32 := do
  match r.text (← loadFiles r.files) with
  | .error e => finish (stopped r.command e)
  | .ok text =>
      if r.output.isEmpty then finish (.done text)
      else
        try
          IO.FS.writeFile r.output text
          finish (.done "")
        catch _ => finish (.failed r.command (.unwritable r.output .missing))

end MirBackend.CommandLine

def main (args : List String) : IO UInt32 :=
  match MirBackend.CommandLine.parse args with
  | .error e => MirBackend.CommandLine.finish (.misused e)
  | .ok r => MirBackend.CommandLine.serve r
