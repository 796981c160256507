import CacheTiming.Report
import CacheTiming.Text.Numeral

/-! Reports as JSON text. -/

namespace CacheTiming.Report

open Text

/-- How a character is written in a JSON string. Angle brackets and ampersands are escaped, so that the
    text can stand in a web page. -/
def jsonChar (c : Char) : String :=
  if c = '"' then "\\\""
  else if c = '\\' then "\\\\"
  else if c = '\n' then "\\n"
  else if c = '\r' then "\\r"
  else if c = '\t' then "\\t"
  else if c.toNat < 0x20 ∨ c = '<' ∨ c = '>' ∨ c = '&' then "\\u" ++ hex 4 c.toNat
  else String.singleton c

/-- A JSON string. -/
def jsonString (s : String) : String := "\"" ++ String.join (s.toList.map jsonChar) ++ "\""

/-- A JSON truth value. -/
def jsonBool (b : Bool) : String := if b then "true" else "false"

/-- The fields of a report as JSON; a cause and a number of traces only stand there if there are some. -/
def jsonFields (r : Report) : List (String × String) :=
  [("program", jsonString r.program), ("fingerprint", jsonString r.fingerprint),
    ("may_fail", jsonBool r.cause.isSome)] ++
  (r.cause.map fun cause => ("failure_cause", jsonString cause.name)).toList ++
  [("traces_tracked", jsonBool r.tracesTracked)] ++
  (r.traces.map fun n => ("traces", jsonString n.repr)).toList ++
  [("trace_bits", r.traceBits), ("times_known", jsonBool r.times.isSome), ("times", (r.times.getD 0).repr),
    ("time_bits", r.timeBits), ("nodes", r.nodes.repr), ("summary", jsonString r.summary)]

/-- A report as JSON. -/
def json (r : Report) : String :=
  let lines := r.jsonFields.map fun (key, value) => "    " ++ jsonString key ++ ": " ++ value
  "  \x7b\n" ++ ",\n".intercalate lines ++ "\n  \x7d"

/-- The file of some reports; without any it holds null. -/
def jsonFile (reports : List Report) : String :=
  if reports.isEmpty then "null\n" else "[\n" ++ ",\n".intercalate (reports.map json) ++ "\n]\n"

end CacheTiming.Report
