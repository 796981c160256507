import CacheTiming.Cache.Model
import CacheTiming.Trace.Error

/-! Abstract domains: the states that an analysis computes with.

The operations of a domain may use a memory that lasts for a whole analysis. What they have written
there stays when they fail. -/

namespace CacheTiming

/-- Why an abstract operation has no result. -/
inductive Failure where
  /-- No concrete state is possible after the operation. -/
  | bottom
  | trace (e : TraceError)
  | fault (f : Fault)
deriving DecidableEq, Repr

namespace Failure

/-- The wording of a failure. -/
def message : Failure → String
  | .bottom => "bottom: infeasible abstract state"
  | .trace e => e.message
  | .fault f => f.message

/-- Whether two placeholders were to be merged. -/
def isPlaceholderMerge : Failure → Bool
  | .trace e => e.isPlaceholderMerge
  | _ => false

end Failure

/-- A computation with a memory that may fail. -/
abbrev Action (μ : Type) := EStateM Failure μ

/-- Fails where the result is a fault. -/
def Action.ofFault {μ α : Type} : Except Fault α → Action μ α
  | .ok a => pure a
  | .error f => throw (.fault f)

/-- A domain with states `σ` and memory `μ`. -/
structure Domain (μ σ : Type) where
  /-- The state before the first instruction. -/
  init : σ
  /-- The state after an access to an address; it fails with `bottom` if the access can neither hit nor
      miss. -/
  touch : σ → UInt64 → Action μ σ
  /-- The state after some time without an access. -/
  elapse : σ → UInt64 → Action μ σ
  /-- A state that covers two others. -/
  join : σ → σ → Action μ σ
  /-- A state that covers two others, at the head of a loop. -/
  widen : σ → σ → Action μ σ
  /-- Whether the second state covers the first. -/
  subseteq : σ → σ → Action μ Bool

/-- How often precision was lost. -/
structure Losses where
  /-- Sets of times that became unknown. -/
  collapses : Nat := 0
  /-- Accesses without a possible outcome. -/
  bottoms : Nat := 0
deriving DecidableEq, Repr

end CacheTiming
