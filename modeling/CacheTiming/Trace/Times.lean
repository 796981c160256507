import CacheTiming.Ascending
import CacheTiming.Machine.Basic
import CacheTiming.Trace.Count
import CacheTiming.Trace.Error

/-! Sets of possible times.

The elapsed times of all paths to a place are a finite set of 64-bit numbers, kept as an ascending
list, or unknown. A set becomes unknown when a time does not fit 64 bits or when it would hold more
than a given number of times. -/

namespace CacheTiming

/-- A set of times. -/
inductive Times where
  | unknown
  | known (values : List UInt64)
deriving DecidableEq, Repr

namespace Times

/-- The set of one time. -/
def singleton (t : UInt64) : Times := .known [t]

/-- Whether the times are unknown. -/
def isUnknown : Times → Bool
  | .unknown => true
  | .known _ => false

/-- The number of times, if they are known. -/
def card? : Times → Option Nat
  | .unknown => none
  | .known ts => some ts.length

/-- Adds a duration to every time. -/
def shift (t : Times) (duration : UInt64) : Times :=
  match t with
  | .unknown => .unknown
  | .known ts =>
    if ts.any fun v => (addTimes v duration).2 then .unknown else .known (ts.map (· + duration))

/-- Merges two ascending lists behind the times that were merged before, and gives up as soon as there are more
    than `limit`. -/
def merge (limit : Int) (merged : Array UInt64) (ts us : List UInt64) : Times :=
  match _least : Ascending.least? ts us with
  | none => .known merged.toList
  | some (t, ts', us') =>
    let merged := merged.push t
    if limit < merged.size then .unknown else merge limit merged ts' us'
termination_by ts.length + us.length
decreasing_by exact Ascending.length_lt_of_least? _least

/-- The union of two sets, unless it has more than `limit` times. -/
def union (limit : Int) : Times → Times → Times
  | .known ts, .known us => merge limit #[] ts us
  | _, _ => .unknown

/-- Adds the duration of a step with the given status. -/
def shiftBy (t : Times) (status : Status) (d : Durations) (limit : Int) : Except TraceError Times :=
  match status with
  | .hit => .ok (t.shift d.hit)
  | .miss => .ok (t.shift d.miss)
  | .noAccess => .ok (t.shift d.noAccess)
  | .hitOrMiss => .ok (union limit (t.shift d.hit) (t.shift d.miss))
  | .none | .unknown .. => .error (.noDuration status)

/-- Whether every time of the first set is one of the second. -/
def subseteq : Times → Times → Bool
  | _, .unknown => true
  | .unknown, .known _ => false
  | .known ts, .known us => Ascending.subset ts us

/-- Whether each of two sets is included in the other. -/
def equal (t u : Times) : Bool := t.subseteq u && u.subseteq t

end Times

end CacheTiming
