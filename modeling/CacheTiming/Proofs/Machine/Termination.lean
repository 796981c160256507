import CacheTiming.Proofs.Machine.Enumeration

/-! How long executions are followed.

Between two backward jumps the place in the program only increases, and a path within the limit has
finitely many backward jumps left. So a path that goes on has less than half as far to go as before, which
pays for both sides of a branch, and every search ends. This needs a counter that gets over the limit:
below the greatest limit it does, at the greatest one a path that loops is never cut off. -/

namespace CacheTiming

/-! ### How long a path can go on -/

/-- A bound on the steps until all paths have left a stretch of the given length, if each path doubles
    at every step and each that leaves takes `unit` steps more. -/
def spread (unit : Nat) : (length : Nat) → Nat
  | 0 => unit
  | length + 1 => 2 * spread unit length + unit

theorem le_spread (unit length : Nat) : unit ≤ spread unit length := by
  cases length with
  | zero => exact Nat.le_refl unit
  | succ length => exact Nat.le_add_left unit _

theorem spread_mono (unit : Nat) {a b : Nat} (h : a ≤ b) : spread unit a ≤ spread unit b := by
  induction h with
  | refl => exact Nat.le_refl _
  | step _ ih =>
    simp only [spread]
    omega

/-- A bound on the steps of a path, and of all paths that fork from it, by the backward jumps that it
    has left and its distance from the end of a program with `size` instructions. -/
def weight (size : Nat) : (budget distance : Nat) → Nat
  | 0, _ => 1
  | budget + 1, distance => spread (weight size budget size + 1) distance

theorem weight_pos (size budget distance : Nat) : 0 < weight size budget distance := by
  cases budget with
  | zero => exact Nat.zero_lt_one
  | succ budget => exact Nat.lt_of_lt_of_le (Nat.succ_pos _) (le_spread _ distance)

theorem weight_mono (size budget : Nat) {a b : Nat} (h : a ≤ b) :
    weight size budget a ≤ weight size budget b := by
  cases budget with
  | zero => exact Nat.le_refl 1
  | succ budget => exact spread_mono _ h

theorem weight_succ (size budget distance : Nat) :
    weight size (budget + 1) (distance + 1) =
      2 * weight size (budget + 1) distance + (weight size budget size + 1) :=
  rfl

namespace Program

variable {p : Program} {maxBackJumps jumps : Int} {pc : UInt64}

/-- The bound on the steps from a place on, after some backward jumps. -/
def cost (p : Program) (maxBackJumps : Int) (pc : UInt64) (jumps : Int) : Nat :=
  weight p.code.length (maxBackJumps + 1 - jumps).toNat (p.code.length - pc.toNat)

/-- A path that goes on inside the program has less than half as far to go as before. -/
theorem two_mul_cost_lt (hj : ¬ maxBackJumps < jumps) (hpc : pc.toNat < p.code.length) (pc' : UInt64) :
    2 * p.cost maxBackJumps pc' (if pc' ≤ pc then jumps + 1 else jumps) < p.cost maxBackJumps pc jumps := by
  obtain ⟨budget, hb⟩ : ∃ r, (maxBackJumps + 1 - jumps).toNat = r + 1 := ⟨(maxBackJumps - jumps).toNat, by omega⟩
  obtain ⟨distance, hd⟩ : ∃ d, p.code.length - pc.toNat = d + 1 := ⟨p.code.length - pc.toNat - 1, by omega⟩
  have hcost : p.cost maxBackJumps pc jumps =
      2 * weight p.code.length (budget + 1) distance + (weight p.code.length budget p.code.length + 1) := by
    rw [cost, hb, hd, weight_succ]
  suffices h : p.cost maxBackJumps pc' (if pc' ≤ pc then jumps + 1 else jumps) ≤
      weight p.code.length (budget + 1) distance by omega
  unfold cost
  split
  · -- A backward jump is paid for with a budget that is one smaller, wherever it leads.
    have hb' : (maxBackJumps + 1 - (jumps + 1)).toNat = budget := by omega
    rw [hb']
    have hall := weight_mono p.code.length budget (a := p.code.length - pc'.toNat) (b := p.code.length) (by omega)
    have hunit : weight p.code.length budget p.code.length + 1 ≤ weight p.code.length (budget + 1) distance :=
      le_spread _ distance
    omega
  · rename_i hforward
    rw [UInt64.le_iff_toNat_le] at hforward
    rw [hb]
    exact weight_mono _ _ (by omega)

end Program

/-! ### Searches that end -/

section Explore
variable {p : Program} {d : Durations} {maxBackJumps : Int} {f : Path} {m : Move} {runs : List Run} {stack : List Path}

/-- The bound on the steps of all paths of a stack. -/
def stackCost (p : Program) (maxBackJumps : Int) : List Path → Nat
  | [] => 0
  | f :: stack => p.cost maxBackJumps f.pc f.jumps.toInt + stackCost p maxBackJumps stack

theorem stackCost_append (stack rest : List Path) :
    stackCost p maxBackJumps (stack ++ rest) = stackCost p maxBackJumps stack + stackCost p maxBackJumps rest := by
  induction stack with
  | nil => exact (Nat.zero_add _).symm
  | cons f stack ih => rw [List.cons_append, stackCost, stackCost, ih, Nat.add_assoc]

theorem Path.two_mul_cost_lt {g : Path} (hlimit : maxBackJumps < Int64.maxValue.toInt) (hj : ¬ maxBackJumps < f.jumps.toInt)
    (h : Path.Step p d f g) :
    2 * p.cost maxBackJumps g.pc g.jumps.toInt < p.cost maxBackJumps f.pc f.jumps.toInt := by
  obtain ⟨pc, machine, hstep, rfl⟩ := Path.step_iff.mp h
  rw [Path.jumps_goTo (by omega)]
  exact Program.two_mul_cost_lt hj hstep.flows.lt_length pc

/-- The paths on which a move goes on have less to do together than the path had. -/
theorem stackCost_next_lt (hlimit : maxBackJumps < Int64.maxValue.toInt) (h : f.move p d maxBackJumps = .ok m) :
    stackCost p maxBackJumps m.next < p.cost maxBackJumps f.pc f.jumps.toInt := by
  have hpos : 0 < p.cost maxBackJumps f.pc f.jumps.toInt := weight_pos ..
  have hless : ∀ g ∈ m.next, 2 * p.cost maxBackJumps g.pc g.jumps.toInt < p.cost maxBackJumps f.pc f.jumps.toInt :=
    fun _ hg => Path.two_mul_cost_lt hlimit (Path.not_lt_of_mem_next h hg) (Path.step_of_mem_next h hg)
  cases m with
  | cut => exact hpos
  | finish run => exact hpos
  | advance next =>
    have hnext := hless next (by simp [Move.next])
    simp only [stackCost, Move.next]
    omega
  | fork next taken =>
    have hnext := hless next (by simp [Move.next])
    have htaken := hless taken (by simp [Move.next])
    simp only [stackCost, Move.next]
    omega

/-- Below the greatest limit every search ends. -/
theorem exists_explore (hlimit : maxBackJumps < Int64.maxValue.toInt) (runs : List Run) (stack : List Path) :
    ∃ result, explore p d maxBackJumps runs stack = some result := by
  induction hcost : stackCost p maxBackJumps stack using Nat.strongRecOn generalizing runs stack with
  | ind n ih =>
    subst hcost
    cases stack with
    | nil => exact ⟨_, explore.eq_1 ..⟩
    | cons f stack =>
      cases hmove : f.move p d maxBackJumps with
      | error e => exact ⟨_, explore_of_error hmove⟩
      | ok m =>
        have hlt := stackCost_next_lt hlimit hmove
        rw [explore_of_ok hmove]
        refine ih _ ?_ (m.runs ++ runs) (m.next ++ stack) rfl
        rw [stackCost_append]
        exact Nat.add_lt_add_right hlt _

theorem exists_enumerate (p : Program) (g : Geometry) (d : Durations) (hlimit : maxBackJumps < Int64.maxValue.toInt) :
    ∃ result, enumerate p g d maxBackJumps = some result :=
  exists_explore hlimit _ _

/-! ### Searches that do not end -/

/-- A search does not end if the path on top of its stack can always go on. -/
theorem explore_eq_none {P : Path → Prop}
    (progress : ∀ f, P f → ∃ next, f.move p d maxBackJumps = .ok (.advance next) ∧ P next) (hf : P f) :
    explore p d maxBackJumps runs (f :: stack) = none := by
  refine Option.eq_none_iff_forall_ne_some.mpr fun r h => ?_
  refine explore_induction (motive := fun _ stack _ => ∀ f rest, stack = f :: rest → ¬ P f) ?_ ?_ ?_ h f stack rfl hf
  · intro runs f rest h
    cases h
  · rintro runs f stack e hmove _ _ ⟨⟩ hf
    obtain ⟨next, hnext, -⟩ := progress f hf
    rw [hmove] at hnext
    cases hnext
  · rintro runs f stack m r hmove ih _ _ ⟨⟩ hf
    obtain ⟨next, hnext, hP⟩ := progress f hf
    rw [hmove] at hnext
    cases hnext
    exact ih next stack rfl hP

/-- With the greatest limit a path that has come to a jump to itself is followed for ever, since no count is
    over the limit. -/
theorem explore_eq_none_of_jump {pc : UInt64} (hop : p.opAt pc = .jump) (hself : (p.fetch pc).arg = pc) (hf : f.pc = pc) :
    explore p d Int64.maxValue.toInt runs (f :: stack) = none := by
  refine explore_eq_none (P := fun f => f.pc = pc) ?_ hf
  rintro f rfl
  have hbranch : p.opAt f.pc ≠ .branch := by simp [hop]
  exact ⟨_, Path.move_eq_advance (Int.not_lt.mpr f.jumps.toInt_le) hbranch (.jump hop), hself⟩

/-- A jump to itself. -/
def Program.spinning : Program where
  name := "spinning"
  code := [{ op := .jump }]
  labels := ∅

end Explore

end CacheTiming
