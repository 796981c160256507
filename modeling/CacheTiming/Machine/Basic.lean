import CacheTiming.Cache.Recency
import CacheTiming.Program.Basic

/-! The concrete machine.

A machine runs single instructions on a concrete cache. It records what an observer sees, one mark for
each access and each passing of time, and keeps a 64-bit clock. The clock wraps around; that it ever
did so is remembered. -/

namespace CacheTiming

/-- The time that an access takes if it hits or misses, and the time of a step without access. -/
structure Durations where
  hit : UInt64
  miss : UInt64
  noAccess : UInt64
deriving DecidableEq, Repr

/-- What an observer sees of a step. -/
inductive Observation where
  | hit
  | miss
  | pause
deriving DecidableEq, Repr

/-- The mark of an observation in a trace. -/
def Observation.mark : Observation → Char
  | .hit => 'H'
  | .miss => 'M'
  | .pause => '.'

/-- The sum of two times, and whether it does not fit 64 bits. -/
def addTimes (a b : UInt64) : UInt64 × Bool := (a + b, UInt64.size ≤ a.toNat + b.toNat)

/-- The state of a machine. -/
structure Machine where
  cache : RecencyCache
  clock : UInt64 := 0
  overflow : Bool := false
  trace : List Observation := []

namespace Machine

/-- The machine with an empty cache, before its first step. -/
def start (g : Geometry) : Machine := { cache := .empty g }

/-- Records an observation that took the given time. -/
def observe (m : Machine) (o : Observation) (cost : UInt64) : Machine :=
  let (clock, overflow) := addTimes m.clock cost
  { m with clock, overflow := m.overflow || overflow, trace := m.trace ++ [o] }

/-- Accesses an address. -/
def touch (m : Machine) (d : Durations) (address : UInt64) : Except Fault Machine :=
  match m.cache.access address with
  | .error e => .error e
  | .ok (true, cache) => .ok ({ m with cache }.observe .hit d.hit)
  | .ok (false, cache) => .ok ({ m with cache }.observe .miss d.miss)

/-- Lets time pass. -/
def elapse (m : Machine) (d : Durations) (time : UInt64) : Machine :=
  let (cost, overflow) := addTimes time d.noAccess
  { m with overflow := m.overflow || overflow }.observe .pause cost

/-- Runs an instruction that stands at `pc`: the place to go on, and the machine after it. -/
def exec (m : Machine) (d : Durations) (i : Instruction) (pc : UInt64) : Except Fault (UInt64 × Machine) :=
  match i.op with
  | .halt => .ok (pc, m)
  | .touch => (m.touch d i.arg).map fun m => (pc + 1, m)
  | .elapse => .ok (pc + 1, m.elapse d i.arg)
  | .jump => .ok (i.arg, m)
  | .branch | .undefined .. => .error .notExecutable

/-- The marks of all observations. -/
def marks (m : Machine) : String := String.ofList (m.trace.map Observation.mark)

end Machine

end CacheTiming
