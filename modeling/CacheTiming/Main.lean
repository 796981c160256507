import CacheTiming.CommandLine.Session
import CacheTiming.Report.Json

/-! The command line. -/

namespace CacheTiming.CommandLine

/-- The bytes of a file, if it can be read. -/
def readBytes? (path : String) : IO (Option Text.Bytes) := do
  try
    return some (← IO.FS.readBinFile path).toList
  catch _ =>
    return none

/-- The files that a command line reads. -/
def inputPaths (args : List String) : List String :=
  match Request.read args with
  | .ok (.analyze o) => o.config :: o.paths
  | _ => []

/-- Whether a command line asks for the log. -/
def wantsLog (args : List String) : Bool :=
  match Request.read args with
  | .ok (.analyze o) => o.verbose
  | _ => false

/-- Writes the reports of a session. -/
def save (s : Session) : IO Session := do
  match s.saved with
  | none => return s
  | some (path, reports) =>
    try
      IO.FS.writeFile path (Report.jsonFile reports)
      return s
    catch _ =>
      return s.unsaved

/-- Runs a command line and gives its exit code. -/
def runMain (args : List String) : IO UInt32 := do
  let files ← (inputPaths args).mapM fun path => return (path, ← readBytes? path)
  let s := Session.run (fun path => (files.lookup path).join) args
  if wantsLog args then
    s.log.forM fun e => IO.eprintln e.line
  IO.print s.output
  match (← save s).error with
  | none => return 0
  | some e =>
    IO.eprintln e.message
    return 1

end CacheTiming.CommandLine

def main (args : List String) : IO UInt32 := CacheTiming.CommandLine.runMain args
