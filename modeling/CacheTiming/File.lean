import CacheTiming.Config
import CacheTiming.Program.Parser
import CacheTiming.Yaml.Value

/-! Files with settings and with programs. -/

namespace CacheTiming

open Text

/-- Why a file cannot be used. -/
inductive FileError where
  | missing (path : String)
  | yaml (path : String) (cause : Yaml.Error)
  | config (cause : ConfigError)
  | program (name : String) (cause : ParseError)
deriving DecidableEq, Repr

/-- The wording of a file error. -/
def FileError.message : FileError → String
  | .missing path => "open " ++ path ++ ": no such file or directory"
  | .yaml path cause => path ++ ": " ++ cause.message
  | .config cause => cause.message
  | .program name cause => cause.message name

/-- The bytes of the file at a path, if there is one. -/
abbrev Files := String → Option Bytes

/-- Reads the first document of a file; an empty stream counts as null. -/
def readFile (files : Files) (path : String) : Except FileError Yaml.Node :=
  match files path with
  | none => .error (.missing path)
  | some text =>
    match Yaml.readDocument text with
    | .ok node => .ok (node.getD .empty)
    | .error e => .error (.yaml path e)

namespace CacheParams

/-- The description of a cache in a document. -/
def ofNode (standard : CacheParams) (v : Yaml.Node) : Except Yaml.Error CacheParams := do
  let fields := (← v.fields).getD []
  let g := standard.geometry
  return {
    geometry :=
      { lineSize := ← Yaml.field fields "line_size" Yaml.Node.word g.lineSize
        sets := ← Yaml.field fields "sets" Yaml.Node.word g.sets
        ways := ← Yaml.field fields "ways" Yaml.Node.word g.ways }
    initiallyEmpty := ← Yaml.field fields "initially_empty" Yaml.Node.bool standard.initiallyEmpty }

end CacheParams

namespace Config

/-- The settings in a document; what is missing keeps its standard value, and what is unknown does not
    count. -/
def ofNode (v : Yaml.Node) : Except Yaml.Error Config := do
  let fields := (← v.fields).getD []
  let c := standard
  return {
    durations :=
      { hit := ← Yaml.field fields "hit_time" Yaml.Node.word c.durations.hit
        miss := ← Yaml.field fields "miss_time" Yaml.Node.word c.durations.miss
        noAccess := ← Yaml.field fields "no_access_time" Yaml.Node.word c.durations.noAccess }
    maxTimes := ← Yaml.field fields "max_times" Yaml.Node.int c.maxTimes
    cache := ← Yaml.field fields "cache" (fun v => some <$> CacheParams.ofNode c.cache v) c.cache
    trackTraces := ← Yaml.field fields "track_traces" Yaml.Node.bool c.trackTraces
    maxUnroll := ← Yaml.field fields "max_unroll" Yaml.Node.int c.maxUnroll
    maxIterations := ← Yaml.field fields "max_iterations" Yaml.Node.int c.maxIterations }

/-- The settings in a file, which are checked. -/
def load (files : Files) (path : String) : Except FileError Config :=
  match readFile files path with
  | .error e => .error e
  | .ok node =>
    match ofNode node with
    | .error e => .error (.yaml path e)
    | .ok c =>
      match c.validate with
      | .ok () => .ok c
      | .error e => .error (.config e)

end Config

namespace Program

/-- A program in a file: its name, or nothing, and its text. -/
structure Source where
  name : String
  code : String
deriving DecidableEq, Repr

/-- The program that an entry of a document describes; a null entry describes none. -/
def Source.ofNode (v : Yaml.Node) : Except Yaml.Error (Option Source) := do
  match ← v.fields with
  | none => return none
  | some fields =>
    return some
      { name := ← Yaml.field fields "name" Yaml.Node.string ""
        code := ← Yaml.field fields "code" Yaml.Node.string "" }

/-- The programs in a document. -/
def sources (v : Yaml.Node) : Except Yaml.Error (List Source) := do
  let fields := (← v.fields).getD []
  let items ← Yaml.field fields "programs" Yaml.Node.items []
  return (← items.mapM Source.ofNode).filterMap id

/-- Reads programs from a file at `path`. A program without a name is named for its file and number. -/
def ofSources (path : String) (sources : List Source) : Except FileError (List Program) :=
  sources.zipIdx.mapM fun (s, i) =>
    let name := if s.name = "" then path ++ "#" ++ i.repr else s.name
    match parse name (utf8 s.code) with
    | .ok p => .ok p
    | .error e => .error (.program name e)

/-- All programs in a file. -/
def loadAll (files : Files) (path : String) : Except FileError (List Program) :=
  match readFile files path with
  | .error e => .error e
  | .ok node =>
    match sources node with
    | .error e => .error (.yaml path e)
    | .ok sources => ofSources path sources

end Program

end CacheTiming
