import CacheTiming.Machine.Paths
import Mathlib.Logic.Relation

/-! Executions of a program: how a path goes on step by step, however often it jumps backwards.

A path steps to another if the two follow each other under some limit on backward jumps. What a step
does to the place and the machine does not depend on the limit (`Machine.Step`), so a statement about
all executions is an induction over these steps. -/

namespace CacheTiming

/-! ### Counters -/

/-- A counter below its greatest value goes up by one. -/
theorem toInt_succ {count : Int64} (h : count.toInt < Int64.maxValue.toInt) : (count + 1).toInt = count.toInt + 1 := by
  have hle := count.le_toInt
  rw [Int64.toInt_maxValue] at h
  rw [Int64.toInt_add, Int64.toInt_one]
  exact Int.bmod_eq_of_le (by omega) (by omega)

/-! ### Steps of a machine -/

/-- One step of a machine at a place of a program: the place where it goes on, and the machine then. A
    branch goes either way. -/
inductive Machine.Step (p : Program) (d : Durations) (pc : UInt64) (m : Machine) : UInt64 → Machine → Prop where
  | touch {m' : Machine} (op : p.opAt pc = .touch) (run : m.touch d (p.fetch pc).arg = .ok m') :
      Step p d pc m (pc + 1) m'
  | elapse (op : p.opAt pc = .elapse) : Step p d pc m (pc + 1) (m.elapse d (p.fetch pc).arg)
  | pass (op : p.opAt pc = .branch) : Step p d pc m (pc + 1) m
  | take (op : p.opAt pc = .branch) : Step p d pc m (p.fetch pc).arg m
  | jump (op : p.opAt pc = .jump) : Step p d pc m (p.fetch pc).arg m

/-- Whether an execution can go on at a place after the instruction at `pc`. -/
inductive Program.Flows (p : Program) (pc : UInt64) : UInt64 → Prop where
  | next (op : p.opAt pc = .touch ∨ p.opAt pc = .elapse ∨ p.opAt pc = .branch) : Flows p pc (pc + 1)
  | target (op : p.opAt pc = .branch ∨ p.opAt pc = .jump) : Flows p pc (p.fetch pc).arg

theorem Machine.Step.flows {p : Program} {d : Durations} {pc pc' : UInt64} {m m' : Machine}
    (h : Step p d pc m pc' m') : p.Flows pc pc' := by
  cases h with
  | touch op => exact .next (Or.inl op)
  | elapse op => exact .next (Or.inr (Or.inl op))
  | pass op => exact .next (Or.inr (Or.inr op))
  | take op => exact .target (Or.inl op)
  | jump op => exact .target (Or.inr op)

/-- Behind its end a program only halts. -/
theorem Program.lt_length_of_op {p : Program} {pc : UInt64} (h : p.opAt pc ≠ .halt) : pc.toNat < p.code.length := by
  rcases Nat.lt_or_ge pc.toNat p.code.length with hlt | hge
  · exact hlt
  · exact absurd (by simp [opAt, fetch, List.getElem?_eq_none hge]) h

theorem Program.Flows.lt_length {p : Program} {pc pc' : UInt64} (h : p.Flows pc pc') : pc.toNat < p.code.length := by
  refine Program.lt_length_of_op fun hhalt => ?_
  cases h <;> simp_all

/-- The place behind an instruction comes later if all places of the program are 64-bit numbers. -/
theorem Program.lt_next {p : Program} {pc : UInt64} (hlen : p.code.length < UInt64.size)
    (hpc : pc.toNat < p.code.length) : pc.toNat < (pc + 1).toNat := by
  rw [UInt64.toNat_add, UInt64.toNat_one, Nat.mod_eq_of_lt (Nat.lt_of_le_of_lt hpc hlen)]
  exact Nat.lt_succ_self _

namespace Path

/-- The path before its first step, with a given cache. -/
def start (cache : RecencyCache) : Path := { pc := 0, jumps := 0, machine := { cache } }

/-- One step of a path under some limit on its backward jumps. -/
inductive Step (p : Program) (d : Durations) (f g : Path) : Prop where
  | advance {maxBackJumps : Int} (h : f.move p d maxBackJumps = .ok (.advance g))
  | pass {maxBackJumps : Int} {taken : Path} (h : f.move p d maxBackJumps = .ok (.fork g taken))
  | take {maxBackJumps : Int} {next : Path} (h : f.move p d maxBackJumps = .ok (.fork next g))

/-- A path that was reached from another by any number of steps. -/
def Reaches (p : Program) (d : Durations) : Path → Path → Prop := Relation.ReflTransGen (Step p d)

/-- A complete execution from a cache: it was reached from the start and stands at a halt. -/
structure Execution (p : Program) (d : Durations) (cache : RecencyCache) (f : Path) : Prop where
  reached : Reaches p d (start cache) f
  halted : p.opAt f.pc = .halt

variable {p : Program} {d : Durations} {maxBackJumps : Int} {f g : Path}

/-- Below its greatest value the counter of a path counts its backward jumps. -/
theorem jumps_goTo (hj : f.jumps.toInt < Int64.maxValue.toInt) (pc : UInt64) (m : Machine) :
    (f.goTo pc m).jumps.toInt = if pc ≤ f.pc then f.jumps.toInt + 1 else f.jumps.toInt := by
  unfold goTo
  dsimp only
  split
  · exact toInt_succ hj
  · rfl

/-! ### Steps of a path and steps of its machine -/

theorem not_lt_of_move {m : Move} (h : f.move p d maxBackJumps = .ok m) (hm : m ≠ .cut) :
    ¬ maxBackJumps < f.jumps.toInt := by
  intro hj
  rw [move, if_pos hj] at h
  cases h
  exact hm rfl

theorem not_lt_of_error {e : PathError} (h : f.move p d maxBackJumps = .error e) : ¬ maxBackJumps < f.jumps.toInt := by
  intro hj
  rw [move, if_pos hj] at h
  cases h

theorem eq_goTo_of_execute {i : Instruction} {m : Move} (h : f.execute d i = .ok m) :
    ∃ pc machine, m = .advance (f.goTo pc machine) := by
  rw [execute] at h
  split at h
  · cases h
    exact ⟨_, _, rfl⟩
  · cases h

theorem op_of_advance (h : f.move p d maxBackJumps = .ok (.advance g)) :
    p.opAt f.pc ≠ .halt ∧ f.execute d (p.fetch f.pc) = .ok (.advance g) := by
  rw [move, if_neg (not_lt_of_move h (by simp))] at h
  unfold Program.opAt
  cases hop : (p.fetch f.pc).op <;> simp only [hop] at h
  case halt => split at h <;> cases h
  case branch => cases h
  case undefined => cases h
  all_goals exact ⟨by simp, h⟩

theorem op_of_fork {next taken : Path} (h : f.move p d maxBackJumps = .ok (.fork next taken)) :
    next = f.goTo (f.pc + 1) f.machine ∧ taken = f.goTo (p.fetch f.pc).arg f.machine := by
  rw [move, if_neg (not_lt_of_move h (by simp))] at h
  cases hop : (p.fetch f.pc).op <;> simp only [hop] at h
  case halt => split at h <;> cases h
  case undefined => cases h
  case branch =>
    cases h
    exact ⟨rfl, rfl⟩
  all_goals
    obtain ⟨_, _, h⟩ := eq_goTo_of_execute h
    cases h

theorem op_eq_branch_of_fork {next taken : Path} (h : f.move p d maxBackJumps = .ok (.fork next taken)) :
    p.opAt f.pc = .branch := by
  rw [move, if_neg (not_lt_of_move h (by simp))] at h
  cases hop : (p.fetch f.pc).op <;> simp only [hop] at h
  case halt => split at h <;> cases h
  case undefined => cases h
  case branch => exact hop
  all_goals
    obtain ⟨_, _, h⟩ := eq_goTo_of_execute h
    cases h

theorem op_ne_branch_of_advance (h : f.move p d maxBackJumps = .ok (.advance g)) : p.opAt f.pc ≠ .branch := by
  intro hop
  have hop : (p.fetch f.pc).op = .branch := hop
  rw [move, if_neg (not_lt_of_move h (by simp))] at h
  simp only [hop] at h
  cases h

/-- A path that goes on does so by a step of its machine. -/
theorem step_of_advance (h : f.move p d maxBackJumps = .ok (.advance g)) :
    ∃ pc m, Machine.Step p d f.pc f.machine pc m ∧ g = f.goTo pc m := by
  obtain ⟨hhalt, hx⟩ := op_of_advance h
  have hbranch := op_ne_branch_of_advance h
  rw [execute] at hx
  split at hx
  · rename_i pc m he
    cases hx
    refine ⟨pc, m, ?_, rfl⟩
    rw [Machine.exec] at he
    cases hop : (p.fetch f.pc).op <;> simp only [hop] at he
    case halt => exact absurd hop hhalt
    case branch => exact absurd hop hbranch
    case undefined => cases he
    case touch =>
      cases ht : f.machine.touch d (p.fetch f.pc).arg <;> rw [ht] at he <;> cases he
      exact .touch hop ht
    case elapse =>
      cases he
      exact .elapse hop
    case jump =>
      cases he
      exact .jump hop
  · cases hx

/-- A step other than a branch is what the path does next, unless it has jumped backwards too often. -/
theorem move_eq_advance {pc : UInt64} {m : Machine} (hj : ¬ maxBackJumps < f.jumps.toInt)
    (hbranch : p.opAt f.pc ≠ .branch) (h : Machine.Step p d f.pc f.machine pc m) :
    f.move p d maxBackJumps = .ok (.advance (f.goTo pc m)) := by
  rw [move, if_neg hj]
  cases h with
  | touch op run =>
    have op : (p.fetch f.pc).op = .touch := op
    simp only [op, execute, Machine.exec, run, Except.map]
  | elapse op =>
    have op : (p.fetch f.pc).op = .elapse := op
    simp only [op, execute, Machine.exec]
  | jump op =>
    have op : (p.fetch f.pc).op = .jump := op
    simp only [op, execute, Machine.exec]
  | pass op => exact absurd op hbranch
  | take op => exact absurd op hbranch

theorem move_eq_fork (hj : ¬ maxBackJumps < f.jumps.toInt) (hop : p.opAt f.pc = .branch) :
    f.move p d maxBackJumps =
      .ok (.fork (f.goTo (f.pc + 1) f.machine) (f.goTo (p.fetch f.pc).arg f.machine)) := by
  have hop : (p.fetch f.pc).op = .branch := hop
  rw [move, if_neg hj]
  simp only [hop]

/-- The steps of a path are those of its machine. -/
theorem step_iff : Step p d f g ↔ ∃ pc m, Machine.Step p d f.pc f.machine pc m ∧ g = f.goTo pc m := by
  constructor
  · intro h
    cases h with
    | advance h => exact step_of_advance h
    | pass h => exact ⟨_, _, .pass (op_eq_branch_of_fork h), (op_of_fork h).1⟩
    | take h => exact ⟨_, _, .take (op_eq_branch_of_fork h), (op_of_fork h).2⟩
  · rintro ⟨pc, m, h, rfl⟩
    have hj : ¬ f.jumps.toInt < f.jumps.toInt := Int.lt_irrefl _
    by_cases hbranch : p.opAt f.pc = .branch
    · cases h with
      | pass => exact .pass (move_eq_fork hj hbranch)
      | take => exact .take (move_eq_fork hj hbranch)
      | touch op => simp [hbranch] at op
      | elapse op => simp [hbranch] at op
      | jump op => simp [hbranch] at op
    · exact .advance (move_eq_advance hj hbranch h)

theorem Step.machine (h : Step p d f g) : Machine.Step p d f.pc f.machine g.pc g.machine := by
  obtain ⟨pc, m, hm, rfl⟩ := step_iff.mp h
  exact hm

theorem Reaches.step {pc : UInt64} {m : Machine} (h : Reaches p d f g) (hs : Machine.Step p d g.pc g.machine pc m) :
    Reaches p d f (g.goTo pc m) :=
  .tail h (step_iff.mpr ⟨pc, m, hs, rfl⟩)

end Path

end CacheTiming
