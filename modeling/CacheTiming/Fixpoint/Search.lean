import CacheTiming.Fixpoint.Event
import CacheTiming.Program.Basic

/-! The search for a fixpoint.

Locations are interpreted in their order, each with the join of the states that have arrived there.
Below the limit of the depth every step leads to a later location, so each location is interpreted
once. At the limit a backward jump stays at its depth: the state at its target is widened until it
covers what arrives. Any other location that is reached again takes the new state, since the old one
has been passed on already.

Rounds are counted in 64 bits and never get over the greatest limit, with which a search may go on for
ever. The analysis stops it after `bound` locations, which is more than any other search needs. -/

namespace CacheTiming

/-- How deep loops are unrolled, and how often a state may be widened at each location. -/
structure Limits where
  unroll : Int
  rounds : Int
deriving DecidableEq, Repr

namespace Fixpoint

/-- What is known about a location that was reached. -/
structure Visit (σ : Type) where
  state : σ
  /-- Whether the location was interpreted at least once. -/
  done : Bool := false
  /-- How often its state was widened. -/
  rounds : Int64 := 0

/-- The state of a search. -/
structure Search (μ σ : Type) where
  memory : μ
  visits : Std.ExtTreeMap Location (Visit σ)
  /-- The locations to be interpreted. -/
  pending : Std.ExtTreeSet Location
  /-- Whether a backward jump was met. -/
  loops : Bool := false
  /-- The join of the states of all paths that have halted. -/
  final : Option σ := none
  log : Array Event := #[]

/-- Why a search stops without a final state. -/
inductive Stop where
  | gaveUp (cause : Cause)
  | aborted (cause : Failure)
  /-- More locations were interpreted than a search needs whose rounds can get over their limit. -/
  | exhausted
deriving DecidableEq, Repr

/-- A computation on a search. -/
abbrev SearchM (μ σ : Type) := EStateM Stop (Search μ σ)

variable {μ σ α : Type}

/-- Logs an event. -/
def log (e : Event) : SearchM μ σ Unit := modify fun s => { s with log := s.log.push e }

/-- Runs an operation of the domain, whose failure is part of the result. -/
def attempt (action : Action μ α) : SearchM μ σ (Except Failure α) := fun s =>
  match action s.memory with
  | .ok a memory => .ok (.ok a) { s with memory }
  | .error e memory => .ok (.error e) { s with memory }

/-- Runs an operation of the domain whose failure ends the search. -/
def demand (action : Action μ α) : SearchM μ σ α := do
  match ← attempt action with
  | .ok a => return a
  | .error e => throw (.aborted e)

/-- Merges states at a location. Traces that cannot be merged are a failed fixpoint once the program
    is known to loop. -/
def merge (loc : Location) (action : Action μ σ) : SearchM μ σ σ := do
  match ← attempt action with
  | .ok st => return st
  | .error e =>
    if (← get).loops && e.isPlaceholderMerge then
      log (.unmergeable loc e)
      throw (.gaveUp .noFixpoint)
    else
      throw (.aborted e)

/-- Keeps a visit, and has its location interpreted. -/
def enqueue (loc : Location) (v : Visit σ) : SearchM μ σ Unit :=
  modify fun s => { s with visits := s.visits.insert loc v, pending := s.pending.insert loc }

variable (D : Domain μ σ) (limits : Limits)

/-- Passes a state on from a location to a place. -/
def propagate (source : Location) (pc : UInt64) (st : σ) : SearchM μ σ Unit := do
  let back := source.goesBack pc
  modify fun s => { s with loops := s.loops || back }
  let loc := source.next limits.unroll pc
  match (← get).visits[loc]? with
  | none => enqueue loc { state := st }
  | some v =>
    if !v.done || (← get).pending.contains loc then
      let st ← merge loc (D.join v.state st)
      enqueue loc { v with state := st }
    else if ← demand (D.subseteq st v.state) then
      return
    else if back then
      if limits.rounds < (v.rounds + 1).toInt then
        log (.unstable loc)
        throw (.gaveUp .noFixpoint)
      let st ← merge loc (D.widen v.state st)
      enqueue loc { v with state := st, rounds := v.rounds + 1 }
    else
      enqueue loc { v with state := st }

/-- Joins the state of a path that has halted to the final state. -/
def conclude (loc : Location) (st : σ) : SearchM μ σ Unit := do
  match (← get).final with
  | none => modify fun s => { s with final := some st }
  | some f =>
    let f ← merge loc (D.join f st)
    modify fun s => { s with final := some f }

/-- Interprets the instruction at a location. A path with an impossible access ends there. -/
def interpret (p : Program) (loc : Location) (st : σ) : SearchM μ σ Unit := do
  let i := p.fetch loc.pc
  log (.step loc i.op)
  match i.op with
  | .undefined .. => throw (.gaveUp .invalidOpcode)
  | .halt => conclude D loc st
  | .touch =>
    match ← attempt (D.touch st i.arg) with
    | .ok st => propagate D limits loc (loc.pc + 1) st
    | .error .bottom => return
    | .error e => throw (.aborted e)
  | .elapse => propagate D limits loc (loc.pc + 1) (← demand (D.elapse st i.arg))
  | .branch =>
    propagate D limits loc (loc.pc + 1) st
    propagate D limits loc i.arg st
  | .jump => propagate D limits loc i.arg st

/-- Takes the first location that is to be interpreted, with its state. -/
def pop : SearchM μ σ (Option (Location × σ)) := do
  let s ← get
  match s.pending.min? with
  | none => return none
  | some loc =>
    match s.visits[loc]? with
    | none => return none
    | some v =>
      set { s with pending := s.pending.erase loc, visits := s.visits.insert loc { v with done := true } }
      return some (loc, v.state)

/-- Ends a search in which no location is left. -/
def finish : SearchM μ σ σ := do
  match (← get).final with
  | none => throw (.gaveUp .noFeasiblePath)
  | some f =>
    log (.stable (← get).visits.size)
    return f

/-- Interprets locations until none is left, but no more than `fuel`. -/
def loop (p : Program) : (fuel : Nat) → SearchM μ σ σ
  | 0 => throw .exhausted
  | fuel + 1 => do
    match ← pop with
    | none => finish
    | some (loc, st) =>
      interpret D limits p loc st
      loop p fuel

/-- More locations than a search in a program can interpret if its rounds can get over their limit. Each
    place is the start, follows an instruction or is a target. Below the limit of the depth a location is
    interpreted once. At the limit the places ascend except after a backward jump, which either reaches its
    target first or takes one of the rounds there. -/
def bound (p : Program) (limits : Limits) : Nat :=
  let places := 2 * p.code.length + 1
  places * (limits.unroll.toNat + 1) + places * places * (limits.rounds.toNat + 1) + 1

/-- A search that has not begun. -/
def Search.start (D : Domain μ σ) (memory : μ) : Search μ σ where
  memory := memory
  visits := Std.ExtTreeMap.empty.insert .start { state := D.init }
  pending := Std.ExtTreeSet.empty.insert .start

end Fixpoint

/-- The result of an analysis. -/
inductive Verdict (σ : Type) where
  /-- The final states of all paths are covered by this one. -/
  | converged (final : σ)
  | gaveUp (cause : Cause)
  | aborted (cause : Failure)

/-- The cause that a verdict names if it is no success. -/
def Verdict.cause? {σ : Type} : Verdict σ → Option Cause
  | .converged _ => none
  | .gaveUp cause => some cause
  | .aborted _ => some .internalFailure

/-- An analysis that has ended. -/
structure Analysis (μ σ : Type) where
  verdict : Verdict σ
  memory : μ
  log : Array Event

/-- Runs a domain over all paths of a program. -/
def analyze {μ σ : Type} (D : Domain μ σ) (limits : Limits) (p : Program) (memory : μ) : Analysis μ σ :=
  match Fixpoint.loop D limits p (Fixpoint.bound p limits) (.start D memory) with
  | .ok final s => { verdict := .converged final, memory := s.memory, log := s.log }
  | .error (.gaveUp cause) s => { verdict := .gaveUp cause, memory := s.memory, log := s.log }
  | .error (.aborted cause) s => { verdict := .aborted cause, memory := s.memory, log := s.log }
  | .error .exhausted s => { verdict := .gaveUp .internalFailure, memory := s.memory, log := s.log }

end CacheTiming
