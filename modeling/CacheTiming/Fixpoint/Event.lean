import CacheTiming.Domain.Basic
import CacheTiming.Fixpoint.Location
import CacheTiming.Program.Opcode
import CacheTiming.Trace.Count

/-! The log of an analysis. -/

namespace CacheTiming

/-- Why an analysis gives up. -/
inductive Cause where
  | internalFailure
  | invalidOpcode
  | noFixpoint
  | noFeasiblePath
deriving DecidableEq, Repr

/-- The name of a cause. -/
def Cause.name : Cause → String
  | .internalFailure => "internal-failure"
  | .invalidOpcode => "invalid-opcode"
  | .noFixpoint => "no-fixpoint"
  | .noFeasiblePath => "no-feasible-path"

/-- What an analysis logs. -/
inductive Event where
  /-- The instruction at a location is interpreted. -/
  | step (loc : Location) (op : Opcode)
  /-- A loop did not become stable within the allowed number of rounds. -/
  | unstable (loc : Location)
  /-- Traces of a loop cannot be merged. -/
  | unmergeable (loc : Location) (cause : Failure)
  /-- No location is left; so many were reached. -/
  | stable (locations : Nat)
  /-- The analysis of a program succeeded. -/
  | finished (nodes times : Nat) (traces : Option Count)
  /-- The analysis of a program gave up. -/
  | gaveUp (cause : Cause)
  /-- The analysis of a program failed. -/
  | aborted (cause : Failure)
deriving DecidableEq, Repr

/-- The line of an event: its level, a message, and the fields that belong to it. -/
def Event.line : Event → String
  | .step loc op => "debug step loc=" ++ loc.text ++ " op=" ++ op.name
  | .unstable loc => "warning no fixpoint within iteration bound loc=" ++ loc.text
  | .unmergeable loc cause =>
    "warning loop traces cannot be merged error=" ++ cause.message ++ " loc=" ++ loc.text
  | .stable locations => "debug fixpoint reached locations=" ++ locations.repr
  | .finished nodes times traces =>
    "info analysis finished nodes=" ++ nodes.repr ++ " times=" ++ times.repr ++ " traces=" ++
      (traces.map Int.repr).getD ""
  | .gaveUp cause => "warning analysis gave up cause=" ++ cause.name
  | .aborted cause => "error analysis aborted error=" ++ cause.message

end CacheTiming
