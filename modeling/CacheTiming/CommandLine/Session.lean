import CacheTiming.Auditor
import CacheTiming.CommandLine.Request
import CacheTiming.File

/-! What a command line does.

A session reads its files, analyzes all programs in order, and says what is to be printed and which
reports are to be written. -/

namespace CacheTiming.CommandLine

/-- Why a session ends with an error. -/
inductive SessionError where
  | usage (cause : UsageError)
  | file (cause : FileError)
  | config (cause : ConfigError)
  /-- Some of the programs could not be analyzed. -/
  | programs (failed all : Nat)
deriving DecidableEq, Repr

/-- The wording of a session error. -/
def SessionError.message : SessionError → String
  | .usage cause => cause.message
  | .file cause => cause.message
  | .config cause => cause.message
  | .programs failed all => failed.repr ++ " of " ++ all.repr ++ " programs ended with an error"

/-- What a session comes to. -/
structure Session where
  /-- The text for standard output. -/
  output : String := ""
  /-- The file for the reports, and the reports. -/
  saved : Option (String × List Report) := none
  error : Option SessionError := none
  log : List Event := []

/-- The help text. -/
def helpText : String :=
  "Count observable hit/miss traces and execution times\n\n" ++
  "Usage:\n" ++
  "  cacheaudit analyze [flags] programs.yaml...\n\n" ++
  "Flags:\n" ++
  "  -c, --config string   YAML configuration file\n" ++
  "  -h, --help            help for analyze\n" ++
  "      --no-traces       analyze the cache only, without traces and times\n" ++
  "  -o, --out string      write the reports as JSON to this file\n" ++
  "  -v, --verbose         log every analysis step\n"

namespace Options

/-- The settings that the options ask for, which are checked. -/
def settings (files : Files) (o : Options) : Except SessionError Config :=
  match if o.config = "" then .ok Config.standard else Config.load files o.config with
  | .error e => .error (.file e)
  | .ok c =>
    let c := if o.noTraces then { c with trackTraces := false } else c
    match c.validate with
    | .error e => .error (.config e)
    | .ok () => .ok c

/-- The programs in all files, in order. -/
def programs (files : Files) (o : Options) : Except SessionError (List Program) :=
  match o.paths.mapM (Program.loadAll files) with
  | .error e => .error (.file e)
  | .ok groups => .ok groups.flatten

end Options

namespace Session

/-- What is printed about an audit. -/
def verdictText (name : String) (audit : Audit) : String :=
  match audit.error, audit.report.cause with
  | some e, _ => "[" ++ name ++ "] analysis ended with an error: " ++ e.message ++ "\n"
  | none, some cause => "[" ++ name ++ "] analysis gave up: " ++ cause.name ++ "\n"
  | none, none => audit.report.summary

/-- Analyzes programs in order; gives the text to print, the reports without errors, and the log. -/
def auditAll (a : Auditor) : List Program → Auditor × String × List Report × List Event
  | [] => (a, "", [], [])
  | p :: rest =>
    let (audit, a) := a.analyze p
    let (a, text, reports, log) := auditAll a rest
    (a, p.name ++ "\n" ++ verdictText p.name audit ++ text,
      if audit.error.isSome then reports else audit.report :: reports, audit.log.toList ++ log)

/-- The session of an analysis. -/
def analyze (files : Files) (o : Options) : Session :=
  match o.settings files with
  | .error e => { error := some e }
  | .ok c =>
    match o.programs files with
    | .error e => { error := some e }
    | .ok programs =>
      let (a, output, reports, log) := auditAll { config := c } programs
      { output, log
        saved := if o.out = "" then none else some (o.out, reports)
        error := if a.errors = 0 then none else some (.programs a.errors programs.length) }

/-- The session of a command line. -/
def run (files : Files) (args : List String) : Session :=
  match Request.read args with
  | .error e => { error := some (.usage e) }
  | .ok .help => { output := helpText }
  | .ok (.analyze o) => analyze files o

/-- The session in which the file for the reports cannot be made. -/
def unsaved (s : Session) : Session :=
  match s.saved with
  | none => s
  | some (path, _) => { s with saved := none, error := some (.file (.missing path)) }

end Session

end CacheTiming.CommandLine
