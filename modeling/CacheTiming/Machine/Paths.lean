import CacheTiming.Machine.Basic

/-! All executions of a program.

From an empty cache, both successors of every branch are followed. A path that jumps backwards too
often is cut off and not reported. Backward jumps are counted in 64 bits, so no path exceeds the greatest
limit: then a program that loops is followed for ever. -/

namespace CacheTiming

/-- A complete execution: what was observed, and the time that it took. -/
structure Run where
  trace : String
  time : UInt64
deriving DecidableEq, Repr

/-- Why the executions of a program cannot be listed. -/
inductive PathError where
  | invalidOpcode (op : Opcode) (pc : UInt64)
  | clockOverflow
  | fault (f : Fault)
deriving DecidableEq, Repr

/-- The wording of a path error. -/
def PathError.message : PathError → String
  | .invalidOpcode op pc => "invalid opcode " ++ op.name ++ " at pc " ++ pc.toNat.repr
  | .clockOverflow => "clock overflow"
  | .fault f => f.message

/-- An execution that is not complete: where it is, and how often it jumped backwards. -/
structure Path where
  pc : UInt64
  jumps : Int64
  machine : Machine

/-- What becomes of a path in one step. -/
inductive Move where
  /-- It jumped backwards too often. -/
  | cut
  /-- It has halted. -/
  | finish (run : Run)
  /-- It goes on. -/
  | advance (next : Path)
  /-- It goes on both behind a branch and at the branch's target. -/
  | fork (next taken : Path)

namespace Move

/-- The paths on which a move goes on, the first one to be followed first. -/
def next : Move → List Path
  | .cut | .finish _ => []
  | .advance f => [f]
  | .fork f g => [f, g]

/-- The executions that a move completes. -/
def runs : Move → List Run
  | .finish run => [run]
  | .cut | .advance _ | .fork .. => []

end Move

namespace Path

/-- The path that goes on at a place with a machine. -/
def goTo (f : Path) (pc : UInt64) (m : Machine) : Path :=
  { pc, jumps := if pc ≤ f.pc then f.jumps + 1 else f.jumps, machine := m }

/-- Executes an instruction that neither halts nor branches. -/
def execute (d : Durations) (i : Instruction) (f : Path) : Except PathError Move :=
  match f.machine.exec d i f.pc with
  | .ok (pc, m) => .ok (.advance (f.goTo pc m))
  | .error e => .error (.fault e)

/-- Takes a path one step further. -/
def move (p : Program) (d : Durations) (maxBackJumps : Int) (f : Path) : Except PathError Move :=
  if maxBackJumps < f.jumps.toInt then
    .ok .cut
  else
    let i := p.fetch f.pc
    match i.op with
    | .undefined code above => .error (.invalidOpcode (.undefined code above) f.pc)
    | .halt =>
      if f.machine.overflow then .error .clockOverflow
      else .ok (.finish { trace := f.machine.marks, time := f.machine.clock })
    | .branch => .ok (.fork (f.goTo (f.pc + 1) f.machine) (f.goTo i.arg f.machine))
    | .touch | .elapse | .jump => f.execute d i

end Path

/-- Follows the paths of a stack, the top one first, and lists their executions behind the reverse of
    `runs`; there is no result if this does not end. -/
def explore (p : Program) (d : Durations) (maxBackJumps : Int) (runs : List Run) (s : List Path) :
    Option (Except PathError (List Run)) :=
  match s with
  | [] => some (.ok runs.reverse)
  | f :: stack =>
    match f.move p d maxBackJumps with
    | .error e => some (.error e)
    | .ok m => (explore p d maxBackJumps (s := m.next ++ stack)) (m.runs ++ runs)
partial_fixpoint

/-- All executions from an empty cache with at most `maxBackJumps` backward jumps. Of the two paths at
    a branch, the one behind it comes first. -/
def enumerate (p : Program) (g : Geometry) (d : Durations) (maxBackJumps : Int) :
    Option (Except PathError (List Run)) :=
  explore p d maxBackJumps [] [{ pc := 0, jumps := 0, machine := .start g }]

end CacheTiming
