import CacheTiming.Domain.Basic
import CacheTiming.Trace.Join
import CacheTiming.Trace.Order
import CacheTiming.Trace.Times

/-! The domain of traces, times and caches.

A state holds the trie node where all traces end, the cache, and the possible times. Its memory is the
store of trie nodes. -/

namespace CacheTiming

/-- A state of the trace domain. -/
structure Traced (χ : Type) where
  trace : NodeId
  cache : χ
  times : Times

namespace Traced

/-- The memory of the trace domain. -/
structure Memory where
  store : Store := .initial
  losses : Losses := {}

/-- How steps are timed, and how many times a set may hold. -/
structure Timing where
  durations : Durations
  maxTimes : Int
deriving DecidableEq, Repr

variable {χ : Type}

/-- Runs an operation of the store. -/
def inStore (f : Store → Except TraceError (NodeId × Store)) : Action Memory NodeId := do
  match f (← get).store with
  | .ok (n, store) =>
    modify fun m => { m with store }
    return n
  | .error e => throw (.trace e)

/-- Takes note of times that are no longer known. -/
def noteCollapse (before after : Times) : Action Memory Unit :=
  if !before.isUnknown && after.isUnknown then
    modify fun m => { m with losses := { m.losses with collapses := m.losses.collapses + 1 } }
  else
    pure ()

/-- Extends the trace by an observation and adds its duration. -/
def observe (t : Timing) (s : Traced χ) (status : Status) : Action Memory (Traced χ) := do
  let trace ← inStore (·.extend s.trace status)
  match s.times.shiftBy status t.durations t.maxTimes with
  | .error e => throw (.trace e)
  | .ok times =>
    noteCollapse s.times times
    return { trace, cache := s.cache, times }

variable [CacheModel χ]

/-- The state after an access. -/
def touch (t : Timing) (s : Traced χ) (address : UInt64) : Action Memory (Traced χ) := do
  let outcomes ← Action.ofFault (CacheModel.touch s.cache address)
  match outcomes.hit, outcomes.miss with
  | none, none =>
    modify fun m => { m with losses := { m.losses with bottoms := m.losses.bottoms + 1 } }
    throw .bottom
  | some hit, none => observe t { s with cache := hit } .hit
  | none, some miss => observe t { s with cache := miss } .miss
  | some hit, some miss =>
    let cache ← Action.ofFault (CacheModel.join hit miss)
    observe t { s with cache } .hitOrMiss

/-- The state after some time without an access. -/
def elapse (t : Timing) (s : Traced χ) (time : UInt64) : Action Memory (Traced χ) := do
  let times := s.times.shift time
  noteCollapse s.times times
  observe t { s with cache := CacheModel.elapse s.cache time, times } .noAccess

/-- Merges two states, given how to merge traces and caches. -/
def merge (t : Timing) (traces : Store → NodeId → NodeId → Except TraceError (NodeId × Store))
    (caches : χ → χ → Except Fault χ) (s u : Traced χ) : Action Memory (Traced χ) := do
  let trace ← inStore (traces · s.trace u.trace)
  let cache ← Action.ofFault (caches s.cache u.cache)
  let times := Times.union t.maxTimes s.times u.times
  noteCollapse s.times times
  return { trace, cache, times }

/-- Whether a state covers another: first its cache is compared, then its times, then its traces. -/
def subseteq (s u : Traced χ) : Action Memory Bool := do
  let covered ← Action.ofFault (CacheModel.subseteq s.cache u.cache)
  if covered && s.times.subseteq u.times then
    return (← get).store.subseteq s.trace u.trace
  else
    return false

/-- The domain that starts with a given cache. -/
def domain (t : Timing) (initial : χ) : Domain Memory (Traced χ) where
  init := { trace := Node.root.id, cache := initial, times := .singleton 0 }
  touch := touch t
  elapse := elapse t
  join := merge t Store.join CacheModel.join
  widen := merge t Store.widen CacheModel.widen
  subseteq := subseteq

/-- Describes a state: the numbers of traces and times with the bits that they are worth, and the
    cache. -/
def render (store : Store) (s : Traced χ) : Except Fault String :=
  let count := store.count s.trace
  let traces := "Number of traces: " ++ count.repr ++ ", " ++ Bits.text 1 count ++ " bits\n"
  let times :=
    match s.times.card? with
    | some n => "Number of possible times: " ++ n.repr ++ ", " ++ Bits.text 1 n ++ " bits\n"
    | none => "Number of possible times: too imprecise to tell\n"
  (CacheModel.render s.cache).map fun cache => traces ++ times ++ cache

/-- Describes how a state differs from an earlier one. -/
def renderChange (store : Store) (earlier later : Traced χ) : Except Fault String :=
  let before := store.count earlier.trace
  let after := store.count later.trace
  let traces := if before = after then "" else "Number of traces: " ++ before.repr ++ " -> " ++ after.repr ++ "\n"
  let times :=
    match earlier.times.card?, later.times.card? with
    | some m, some n => if m = n then "" else "Number of possible times: " ++ m.repr ++ " -> " ++ n.repr ++ "\n"
    | some m, none => "Number of possible times: " ++ m.repr ++ " -> too imprecise to tell\n"
    | none, _ => ""
  (CacheModel.renderChange earlier.cache later.cache).map fun cache => cache ++ traces ++ times

end Traced

end CacheTiming
