import CacheTiming.Proofs.Machine.Enumeration
import Mathlib.Data.List.GetD

/-! Programs with a single path.

Without branches and backward jumps every step of a program is determined and goes on at a later place,
so there is one execution at most, and listing all executions follows just that one. -/

namespace CacheTiming

/-- Whether an execution goes on in one way only from an instruction at a place, and behind that
    place. -/
def Instruction.Onward (place : Nat) (i : Instruction) : Prop :=
  match i.op with
  | .halt | .touch | .elapse => True
  | .jump => place < i.arg.toNat
  | .branch | .undefined .. => False

instance (place : Nat) : (i : Instruction) → Decidable (i.Onward place)
  | { op := .halt, .. } | { op := .touch, .. } | { op := .elapse, .. } => isTrue trivial
  | { op := .jump, arg, .. } => inferInstanceAs (Decidable (place < arg.toNat))
  | { op := .branch, .. } | { op := .undefined .., .. } => isFalse id

/-- A program without branches and undefined operations whose jumps all go forward. -/
def Program.SinglePath (p : Program) : Prop := ∀ place, (h : place < p.code.length) → p.code[place].Onward place

instance (p : Program) : Decidable p.SinglePath :=
  inferInstanceAs (Decidable (∀ place, (h : place < p.code.length) → p.code[place].Onward place))

variable {p : Program} {d : Durations} {pc pc₁ pc₂ : UInt64} {m m₁ m₂ : Machine}

theorem Machine.Step.lt_length (h : Step p d pc m pc₁ m₁) : pc.toNat < p.code.length := h.flows.lt_length

/-- A step observes one thing at most. -/
theorem Machine.Step.length_trace_le (h : Step p d pc m pc₁ m₁) : m₁.trace.length ≤ m.trace.length + 1 := by
  cases h with
  | touch op run =>
    unfold Machine.touch at run
    split at run
    · cases run
    · cases run
      simp [Machine.observe]
    · cases run
      simp [Machine.observe]
  | elapse op => simp [Machine.elapse, Machine.observe]
  | pass op => exact Nat.le_succ _
  | take op => exact Nat.le_succ _
  | jump op => exact Nat.le_succ _

namespace Program.SinglePath

variable (hp : p.SinglePath)
include hp

theorem onward (pc : UInt64) : (p.fetch pc).Onward pc.toNat := by
  unfold fetch
  rcases Nat.lt_or_ge pc.toNat p.code.length with hlt | hge
  · rw [List.getD_eq_getElem _ _ hlt]
    exact hp _ hlt
  · rw [List.getD_eq_default _ _ hge]
    trivial

theorem op_ne_branch (pc : UInt64) : p.opAt pc ≠ .branch := by
  intro hop
  have hop : (p.fetch pc).op = .branch := hop
  have hon := hp.onward pc
  simp only [Instruction.Onward, hop] at hon

theorem lt_arg_of_jump (hop : p.opAt pc = .jump) : pc.toNat < (p.fetch pc).arg.toNat := by
  have hop : (p.fetch pc).op = .jump := hop
  have hon := hp.onward pc
  simp only [Instruction.Onward, hop] at hon
  exact hon

/-- Each step goes on at a later place. -/
theorem lt_of_step (hlen : p.code.length < UInt64.size) (h : Machine.Step p d pc m pc₁ m₁) : pc.toNat < pc₁.toNat := by
  have hnext := lt_next hlen h.lt_length
  cases h with
  | touch op run => exact hnext
  | elapse op => exact hnext
  | pass op => exact hnext
  | take op => exact absurd op (hp.op_ne_branch pc)
  | jump op => exact hp.lt_arg_of_jump op

theorem step_unique (h₁ : Machine.Step p d pc m pc₁ m₁) (h₂ : Machine.Step p d pc m pc₂ m₂) : pc₁ = pc₂ ∧ m₁ = m₂ := by
  have hbranch := hp.op_ne_branch pc
  cases h₁ <;> cases h₂ <;> simp_all

theorem exists_step (hop : p.opAt pc ≠ .halt) (htouch : ∀ address, ∃ m', m.touch d address = .ok m') :
    ∃ pc' m', Machine.Step p d pc m pc' m' := by
  have hon := hp.onward pc
  cases h : (p.fetch pc).op with
  | halt => exact absurd h hop
  | touch =>
    obtain ⟨m', hm'⟩ := htouch (p.fetch pc).arg
    exact ⟨_, _, .touch h hm'⟩
  | elapse => exact ⟨_, _, .elapse h⟩
  | jump => exact ⟨_, _, .jump h⟩
  | branch => exact absurd h (hp.op_ne_branch pc)
  | undefined code above => simp only [Instruction.Onward, h] at hon

end Program.SinglePath

/-! ### The only execution -/

namespace Path

variable {f g : Path} {cache : RecencyCache} (hp : p.SinglePath)
include hp

theorem Step.unique {h : Path} (h₁ : Step p d f g) (h₂ : Step p d f h) : g = h := by
  obtain ⟨pc₁, m₁, hs₁, rfl⟩ := step_iff.mp h₁
  obtain ⟨pc₂, m₂, hs₂, rfl⟩ := step_iff.mp h₂
  obtain ⟨rfl, rfl⟩ := hp.step_unique hs₁ hs₂
  rfl

omit hp in
theorem not_step_of_halt (hf : p.opAt f.pc = .halt) : ¬ Step p d f g := by
  intro h
  obtain ⟨pc, m, hs, -⟩ := step_iff.mp h
  cases hs <;> simp_all

/-- Steps are determined, so that one of two executions goes on from the other, which has halted. -/
theorem Execution.unique (hf : Execution p d cache f) (hg : Execution p d cache g) : f = g := by
  have hunique : Relator.RightUnique (Step p d) := fun _ _ _ h₁ h₂ => h₁.unique hp h₂
  rcases Relation.ReflTransGen.total_of_right_unique hunique hf.reached hg.reached with h | h
  · rcases Relation.ReflTransGen.cases_head h with rfl | ⟨_, hstep, -⟩
    · rfl
    · exact absurd hstep (not_step_of_halt hf.halted)
  · rcases Relation.ReflTransGen.cases_head h with rfl | ⟨_, hstep, -⟩
    · rfl
    · exact absurd hstep (not_step_of_halt hg.halted)

theorem Step.jumps_eq (hlen : p.code.length < UInt64.size) (h : Step p d f g) : g.jumps = f.jumps := by
  obtain ⟨pc, m, hs, rfl⟩ := step_iff.mp h
  have hlt := hp.lt_of_step hlen hs
  have hle : ¬ pc ≤ f.pc := by
    rw [UInt64.le_iff_toNat_le]
    omega
  simp [goTo, hle]

end Path

/-! ### Listing executions -/

section Explore
variable {maxBackJumps : Int} {f g : Path} (runs : List Run) (stack : List Path)

theorem explore_of_halt (hf : p.opAt f.pc = .halt) (hj : ¬ maxBackJumps < f.jumps.toInt) :
    explore p d maxBackJumps runs [f] =
      some (if f.machine.overflow then .error .clockOverflow else .ok (runs.reverse ++ [f.run])) := by
  cases hclock : f.machine.overflow with
  | true => exact explore_of_error (Path.Refused.move (.clockOverflow hf hclock) hj)
  | false =>
    rw [explore_of_ok (Path.move_of_halt hj hf hclock)]
    simp [Move.runs, Move.next, explore]

/-- Following the paths from a path with a single continuation leads where that one leads. -/
theorem explore_of_reaches (hp : p.SinglePath) (hlen : p.code.length < UInt64.size) (h : Path.Reaches p d f g)
    (hj : ¬ maxBackJumps < f.jumps.toInt) :
    explore p d maxBackJumps runs (f :: stack) = explore p d maxBackJumps runs (g :: stack) ∧ g.jumps = f.jumps := by
  induction h with
  | refl => exact ⟨rfl, rfl⟩
  | tail _ hstep ih =>
    obtain ⟨hexplore, hjumps⟩ := ih
    have hjumps' := hstep.jumps_eq hp hlen
    obtain ⟨pc, m, hs, rfl⟩ := Path.step_iff.mp hstep
    have hmove := Path.move_eq_advance (hjumps ▸ hj) (hp.op_ne_branch _) hs
    exact ⟨hexplore.trans (explore_of_ok hmove), hjumps'.trans hjumps⟩

/-- The list of executions holds the single one, unless its clock wraps around. -/
theorem enumerate_eq (hp : p.SinglePath) (hlen : p.code.length < UInt64.size) {geometry : Geometry}
    (hf : Path.Execution p d (.empty geometry) f) (hj : 0 ≤ maxBackJumps) :
    enumerate p geometry d maxBackJumps =
      some (if f.machine.overflow then .error .clockOverflow else .ok [f.run]) := by
  have hj : ¬ maxBackJumps < (Path.start (.empty geometry)).jumps.toInt := Int.not_lt.mpr hj
  obtain ⟨hexplore, hjumps⟩ := explore_of_reaches [] [] hp hlen hf.reached hj
  exact hexplore.trans (explore_of_halt [] hf.halted (hjumps ▸ hj))

end Explore

end CacheTiming
