import CacheTiming.Proofs.Machine.Reachability

/-! The list of executions by recursion over the program.

The executions from a place follow from those of the places behind it: at a branch they are those behind
the branch and then those at its target, both with the machine before the branch. `Program.Lists` says so
without a stack, and counts backward jumps without an end to their number. Every place has just one list or
failure, and it is what the search with a stack gives as long as its counter gets over the limit. -/

namespace CacheTiming

/-- Two lists of executions one after the other; the first failure counts. -/
def followedBy (first second : Except PathError (List Run)) : Except PathError (List Run) := do
  let runs ← first
  let runs' ← second
  return runs ++ runs'

/-- What is listed for the executions that go on at a place after some backward jumps. -/
inductive Program.Lists (p : Program) (d : Durations) (maxBackJumps : Int) :
    (pc : UInt64) → (jumps : Int) → Machine → Except PathError (List Run) → Prop where
  | cut {pc : UInt64} {jumps : Int} {m : Machine} (exceeded : maxBackJumps < jumps) :
      Lists p d maxBackJumps pc jumps m (.ok [])
  | invalidOpcode {pc : UInt64} {jumps : Int} {m : Machine} {op : Opcode} (within : ¬ maxBackJumps < jumps)
      (found : p.opAt pc = op) (meaningless : op.isDefined = false) :
      Lists p d maxBackJumps pc jumps m (.error (.invalidOpcode op pc))
  | halt {pc : UInt64} {jumps : Int} {m : Machine} (within : ¬ maxBackJumps < jumps) (op : p.opAt pc = .halt)
      (fits : m.overflow = false) : Lists p d maxBackJumps pc jumps m (.ok [{ trace := m.marks, time := m.clock }])
  | clockOverflow {pc : UInt64} {jumps : Int} {m : Machine} (within : ¬ maxBackJumps < jumps)
      (op : p.opAt pc = .halt) (overflow : m.overflow = true) :
      Lists p d maxBackJumps pc jumps m (.error .clockOverflow)
  | branch {pc : UInt64} {jumps : Int} {m : Machine} {behind taken : Except PathError (List Run)}
      (within : ¬ maxBackJumps < jumps) (op : p.opAt pc = .branch)
      (next : Lists p d maxBackJumps (pc + 1) jumps m behind)
      (target : Lists p d maxBackJumps (p.fetch pc).arg
        (if (p.fetch pc).arg ≤ pc then jumps + 1 else jumps) m taken) :
      Lists p d maxBackJumps pc jumps m (followedBy behind taken)
  /-- An access, the passing of time or a jump. -/
  | step {pc pc' : UInt64} {jumps : Int} {m m' : Machine} {result : Except PathError (List Run)}
      (within : ¬ maxBackJumps < jumps) (straight : p.opAt pc ≠ .branch) (run : Machine.Step p d pc m pc' m')
      (rest : Lists p d maxBackJumps pc' (if pc' ≤ pc then jumps + 1 else jumps) m' result) :
      Lists p d maxBackJumps pc jumps m result

variable {p : Program} {d : Durations} {maxBackJumps : Int} {pc : UInt64} {jumps : Int} {m : Machine}
  {result : Except PathError (List Run)}

/-- Going on behind an instruction of the program is no jump backwards. -/
theorem Program.not_next_le (hlen : p.code.length < UInt64.size) (hpc : pc.toNat < p.code.length) : ¬ pc + 1 ≤ pc := by
  rw [UInt64.le_iff_toNat_le]
  exact Nat.not_le_of_lt (lt_next hlen hpc)

theorem Program.lt_length_of_branch (hop : p.opAt pc = .branch) : pc.toNat < p.code.length :=
  Flows.lt_length (.target (Or.inl hop))

/-! ### The search follows the recursion -/

/-- What a search comes to that goes on from a list, unless that has failed. -/
def goingOn (first : Except PathError (List Run)) (rest : List Run → Option (Except PathError (List Run))) :
    Option (Except PathError (List Run)) :=
  match first with
  | .ok list => rest list
  | .error e => some (.error e)

/-- A search with a path on top of its stack lists what the path does and then goes on with the rest of the
    stack, unless the path fails. -/
theorem Program.Lists.explore (hlen : p.code.length < UInt64.size) (hlimit : maxBackJumps < Int64.maxValue.toInt)
    (h : p.Lists d maxBackJumps pc jumps m result) {count : Int64} (hcount : count.toInt = jumps) (runs : List Run)
    (stack : List Path) :
    explore p d maxBackJumps runs ({ pc, jumps := count, machine := m } :: stack) =
      goingOn result fun list => CacheTiming.explore p d maxBackJumps (list.reverse ++ runs) stack := by
  induction h generalizing count runs stack with
  | @cut pc jumps m exceeded =>
    subst hcount
    have hmove : ({ pc, jumps := count, machine := m } : Path).move p d maxBackJumps = .ok .cut := if_pos exceeded
    exact explore_of_ok hmove
  | invalidOpcode within found meaningless =>
    subst hcount
    exact explore_of_error (Path.Refused.move (.invalidOpcode found meaningless) within)
  | halt within op fits =>
    subst hcount
    exact explore_of_ok (Path.move_of_halt within op fits)
  | clockOverflow within op overflow =>
    subst hcount
    exact explore_of_error (Path.Refused.move (.clockOverflow op overflow) within)
  | @branch pc jumps m behind taken within op next target ihnext ihtarget =>
    subst hcount
    let f : Path := { pc, jumps := count, machine := m }
    have hbelow : f.jumps.toInt < Int64.maxValue.toInt := Int.lt_of_le_of_lt (Int.not_lt.mp within) hlimit
    have hnext : (f.goTo (pc + 1) m).jumps.toInt = count.toInt := by
      rw [Path.jumps_goTo hbelow, if_neg (not_next_le hlen (lt_length_of_branch op))]
    rw [explore_of_ok (Path.move_eq_fork (d := d) (f := f) within op)]
    -- The target waits right below the place behind the branch.
    refine (ihnext hnext runs (_ :: stack)).trans ?_
    cases behind with
    | error e => rfl
    | ok list =>
      refine (ihtarget (Path.jumps_goTo hbelow _ m) (list.reverse ++ runs) stack).trans ?_
      cases taken with
      | error e => rfl
      | ok list' => simp [goingOn, followedBy, bind, Except.bind, pure, Except.pure]
  | @step pc pc' jumps m m' result within straight run rest ih =>
    subst hcount
    let f : Path := { pc, jumps := count, machine := m }
    have hbelow : f.jumps.toInt < Int64.maxValue.toInt := Int.lt_of_le_of_lt (Int.not_lt.mp within) hlimit
    rw [explore_of_ok (Path.move_eq_advance (f := f) within straight run)]
    exact ih (Path.jumps_goTo hbelow _ m') runs stack

/-! ### The recursion ends -/

/-- If the cache can be accessed, there is a list or failure for every place. -/
theorem Program.exists_lists (hlen : p.code.length < UInt64.size) (d : Durations) (maxBackJumps : Int) (pc : UInt64)
    (jumps : Int) (m : Machine) (hg : m.cache.geometry.divides = true) :
    ∃ result, p.Lists d maxBackJumps pc jumps m result := by
  -- The bound on the steps from a place is smaller for each place where the recursion goes on.
  induction hcost : p.cost maxBackJumps pc jumps using Nat.strongRecOn generalizing pc jumps m with
  | ind n ih =>
    subst hcost
    by_cases hj : maxBackJumps < jumps
    · exact ⟨_, .cut hj⟩
    have hless : ∀ pc', pc.toNat < p.code.length →
        p.cost maxBackJumps pc' (if pc' ≤ pc then jumps + 1 else jumps) < p.cost maxBackJumps pc jumps := by
      intro pc' hpc
      have htwo := two_mul_cost_lt hj hpc pc'
      omega
    by_cases hbranch : p.opAt pc = .branch
    · have hpc := lt_length_of_branch hbranch
      have hnext := hless (pc + 1) hpc
      rw [if_neg (not_next_le hlen hpc)] at hnext
      obtain ⟨behind, hbehind⟩ := ih _ hnext _ _ m hg rfl
      obtain ⟨taken, htaken⟩ := ih _ (hless (p.fetch pc).arg hpc) _ _ m hg rfl
      exact ⟨_, .branch hj hbranch hbehind htaken⟩
    rcases Path.refused_or_halted_or_step p d { pc, jumps := 0, machine := m } with ⟨e, he⟩ | ⟨hop, hclock⟩ |
      ⟨pc', m', hstep⟩
    · cases he with
      | invalidOpcode found meaningless => exact ⟨_, .invalidOpcode hj found meaningless⟩
      | clockOverflow op overflow => exact ⟨_, .clockOverflow hj op overflow⟩
      | fault op access =>
        obtain ⟨m, hm⟩ := Machine.exists_touch d hg (p.fetch pc).arg
        rw [hm] at access
        cases access
    · exact ⟨_, .halt hj hop hclock⟩
    · obtain ⟨result, hrest⟩ := ih _ (hless pc' hstep.flows.lt_length) _ _ m' (hstep.geometry ▸ hg) rfl
      exact ⟨result, .step hj hbranch hstep hrest⟩

/-! ### The whole list -/

/-- Below the greatest limit the search for the executions from an empty cache ends. They are listed in the
    order of the recursion, each as often as it occurs there, and the first failure of the recursion is the
    failure of the whole. -/
theorem lists_iff_enumerate (hlen : p.code.length < UInt64.size) {g : Geometry} (hline : g.lineSize ≠ 0)
    (hsets : g.sets ≠ 0) (d : Durations) {maxBackJumps : Int} (hlimit : maxBackJumps < Int64.maxValue.toInt) :
    (∃ result, enumerate p g d maxBackJumps = some result) ∧
    ∀ result, p.Lists d maxBackJumps 0 0 (.start g) result ↔ enumerate p g d maxBackJumps = some result := by
  have hg : g.divides = true := by
    simp [Geometry.divides, hline, hsets]
  have hfound : ∀ {r}, p.Lists d maxBackJumps 0 0 (.start g) r → enumerate p g d maxBackJumps = some r := by
    intro r h
    refine (h.explore hlen hlimit Int64.toInt_zero [] []).trans ?_
    cases r with
    | error e => rfl
    | ok list => simp [goingOn, explore]
  obtain ⟨r, hr⟩ := p.exists_lists hlen d maxBackJumps 0 0 (.start g) hg
  refine ⟨⟨r, hfound hr⟩, fun result => ⟨hfound, fun h => ?_⟩⟩
  rw [hfound hr] at h
  cases h
  exact hr

/-- A loop of one access, which can be left at its end. -/
def Program.polling : Program where
  name := "polling"
  code := [{ op := .touch }, { op := .branch }]
  labels := ∅

theorem enumerate_polling :
    enumerate .polling { lineSize := 64, sets := 1, ways := 2 } { hit := 3, miss := 20, noAccess := 1 } 1 =
      some (.ok [{ trace := "M", time := 20 }, { trace := "MH", time := 23 }]) := by
  have hlists : Program.polling.Lists { hit := 3, miss := 20, noAccess := 1 } 1 0 0
      (.start { lineSize := 64, sets := 1, ways := 2 })
      (followedBy (.ok [{ trace := "M", time := 20 }])
        (followedBy (.ok [{ trace := "MH", time := 23 }]) (.ok []))) :=
    -- The loop is left at once or after one jump back; a second jump is over the limit.
    .step (by decide) (by decide) (.touch rfl rfl)
      (.branch (by decide) rfl (.halt (by decide) rfl rfl)
        (.step (by decide) (by decide) (.touch rfl rfl)
          (.branch (by decide) rfl (.halt (by decide) rfl rfl) (.cut (by decide)))))
  exact ((lists_iff_enumerate (by decide) (by decide) (by decide) _ (by decide)).2 _).mp hlists

/-! ### The greatest limit -/

/-- The recursion jumps until it is over the limit, whatever the limit is. -/
theorem Program.lists_spinning (d : Durations) (maxBackJumps : Int) (m : Machine) :
    ∀ (n : Nat) (jumps : Int), maxBackJumps + 1 - jumps ≤ n → spinning.Lists d maxBackJumps 0 jumps m (.ok [])
  | 0, jumps, hn => .cut (by omega)
  | n + 1, jumps, hn => by
    by_cases hj : maxBackJumps < jumps
    · exact .cut hj
    · exact .step hj (by decide) (.jump rfl) (lists_spinning d maxBackJumps m n (jumps + 1) (by omega))

/-- With the greatest limit the recursion lists nothing for a jump to itself, but the search does not end. -/
theorem spinning_never_enumerated :
    Program.spinning.Lists { hit := 3, miss := 20, noAccess := 1 } Int64.maxValue.toInt 0 0
      (.start { lineSize := 64, sets := 1, ways := 2 }) (.ok []) ∧
    enumerate .spinning { lineSize := 64, sets := 1, ways := 2 } { hit := 3, miss := 20, noAccess := 1 }
      Int64.maxValue.toInt = none :=
  ⟨Program.lists_spinning _ _ _ (Int64.maxValue.toInt + 1).toNat 0 (by decide), explore_eq_none_of_jump rfl rfl rfl⟩

end CacheTiming
