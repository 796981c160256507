import CacheTiming.Proofs.Machine.Termination
import CacheTiming.Proofs.Trace.Observation
import Mathlib.Data.Finset.Card
import Mathlib.Data.Finset.Range

/-! The places that executions come to.

If the cache can be accessed at all, nothing keeps an execution from going on wherever the program leads.
So the places that are reached along the program alone decide whether the list of executions is empty, and
whether it fails. A place that is reached at all is reached without coming by any place twice, so a limit
of as many backward jumps as there are instructions is enough for it. -/

namespace CacheTiming

/-- The places to which a program leads from its start. -/
def Program.Reachable (p : Program) (pc : UInt64) : Prop := Relation.ReflTransGen p.Flows 0 pc

variable {p : Program} {d : Durations} {g : Geometry} {pc pc' : UInt64} {m m' : Machine} {f f' : Path}

/-! ### Short ways -/

/-- A way from one place to another with a number of steps. -/
inductive Program.Walk (p : Program) : Nat → UInt64 → UInt64 → Prop where
  | nil {pc : UInt64} : Walk p 0 pc pc
  | cons {n : Nat} {pc pc' pc'' : UInt64} (flows : p.Flows pc pc') (rest : Walk p n pc' pc'') : Walk p (n + 1) pc pc''

/-- The flow of a program without what leaves some of its places. -/
def Program.FlowsAvoiding (p : Program) (avoided : Finset UInt64) (pc pc' : UInt64) : Prop :=
  p.Flows pc pc' ∧ pc ∉ avoided

/-- A way to another place leaves its start for the last time at some step, and never comes back from
    there. -/
theorem Program.eq_or_leaves {avoided : Finset UInt64} (h : Relation.ReflTransGen (p.FlowsAvoiding avoided) pc pc') :
    pc = pc' ∨ ∃ next, p.FlowsAvoiding avoided pc next ∧
      Relation.ReflTransGen (p.FlowsAvoiding (insert pc avoided)) next pc' := by
  induction h with
  | refl => exact Or.inl rfl
  | @tail b c _ hstep ih =>
    by_cases hb : b = pc
    · subst hb
      exact Or.inr ⟨c, hstep, .refl⟩
    · rcases ih with heq | ⟨next, hfirst, hrest⟩
      · exact absurd heq.symm hb
      · have havoid : b ∉ insert pc avoided := by simp [hb, hstep.2]
        exact Or.inr ⟨next, hfirst, hrest.tail ⟨hstep.1, havoid⟩⟩

theorem Program.card_le_length {places : Finset UInt64} (h : ∀ pc ∈ places, pc.toNat < p.code.length) :
    places.card ≤ p.code.length := by
  rw [← Finset.card_range p.code.length]
  exact Finset.card_le_card_of_injOn UInt64.toNat (fun pc hpc => Finset.mem_range.mpr (h pc hpc))
    (fun _ _ _ _ => UInt64.toNat_inj.mp)

theorem Program.exists_walk {avoided : Finset UInt64} (havoided : ∀ pc ∈ avoided, pc.toNat < p.code.length)
    (h : Relation.ReflTransGen (p.FlowsAvoiding avoided) pc pc') :
    ∃ n, p.Walk n pc pc' ∧ n + avoided.card ≤ p.code.length := by
  -- With each step one more place is avoided, and there are not more of them than instructions.
  induction hleft : p.code.length - avoided.card using Nat.strongRecOn generalizing avoided pc with
  | ind left ih =>
    rcases eq_or_leaves h with rfl | ⟨next, ⟨hflows, hnew⟩, hrest⟩
    · exact ⟨0, .nil, by simpa using card_le_length havoided⟩
    · have hplaces : ∀ x ∈ insert pc avoided, x.toNat < p.code.length :=
        Finset.forall_mem_insert pc avoided _ |>.mpr ⟨hflows.lt_length, havoided⟩
      have hcard := card_le_length hplaces
      have hone := Finset.card_insert_of_notMem hnew
      obtain ⟨n, hwalk, hn⟩ := ih _ (by omega) hplaces hrest rfl
      exact ⟨n + 1, .cons hflows hwalk, by omega⟩

theorem Program.Reachable.exists_walk (h : p.Reachable pc) : ∃ n ≤ p.code.length, p.Walk n 0 pc := by
  have hnone : Relation.ReflTransGen (p.FlowsAvoiding ∅) 0 pc :=
    Relation.ReflTransGen.mono (fun _ _ hflows => ⟨hflows, Finset.notMem_empty _⟩) _ _ h
  obtain ⟨n, hwalk, hn⟩ := Program.exists_walk (by simp) hnone
  exact ⟨n, hn, hwalk⟩

/-! ### Places and paths -/

theorem Machine.exists_touch (d : Durations) (h : m.cache.geometry.divides = true) (address : UInt64) :
    ∃ m', m.touch d address = .ok m' := by
  have haccess : ∃ r, m.cache.access address = .ok r := ⟨_, if_pos h⟩
  obtain ⟨⟨hit, cache⟩, haccess⟩ := haccess
  exact ⟨_, touch_eq_ok.mpr ⟨hit, cache, haccess, rfl⟩⟩

theorem Machine.geometry_touch {address : UInt64} (h : m.touch d address = .ok m') :
    m'.cache.geometry = m.cache.geometry := by
  obtain ⟨hit, cache, haccess, rfl⟩ := touch_eq_ok.mp h
  unfold RecencyCache.access at haccess
  split at haccess
  · cases haccess
    rfl
  · cases haccess

theorem Machine.Step.geometry (h : Step p d pc m pc' m') : m'.cache.geometry = m.cache.geometry := by
  cases h with
  | touch op run => exact geometry_touch run
  | elapse op => rfl
  | pass op => rfl
  | take op => rfl
  | jump op => rfl

/-- A machine with an accessible cache can go on wherever the program does. -/
theorem Program.Flows.exists_step (h : p.Flows pc pc') (d : Durations) (hm : m.cache.geometry.divides = true) :
    ∃ m', Machine.Step p d pc m pc' m' := by
  cases h with
  | next op =>
    rcases op with op | op | op
    · obtain ⟨m', hm'⟩ := Machine.exists_touch d hm (p.fetch pc).arg
      exact ⟨m', .touch op hm'⟩
    · exact ⟨_, .elapse op⟩
    · exact ⟨_, .pass op⟩
  | target op =>
    rcases op with op | op
    · exact ⟨_, .take op⟩
    · exact ⟨_, .jump op⟩

namespace Path

theorem Reaches.geometry (h : Reaches p d f f') : f'.machine.cache.geometry = f.machine.cache.geometry := by
  induction h with
  | refl => rfl
  | tail _ hstep ih => exact hstep.machine.geometry.trans ih

theorem Reaches.reachable {cache : RecencyCache} (h : Reaches p d (start cache) f) : p.Reachable f.pc := by
  induction h with
  | refl => exact .refl
  | tail _ hstep ih => exact .tail ih hstep.machine.flows

theorem exists_reaches (cache : RecencyCache) (d : Durations) (hg : cache.geometry.divides = true)
    (h : p.Reachable pc) : ∃ f, Reaches p d (start cache) f ∧ f.pc = pc := by
  induction h with
  | refl => exact ⟨_, .refl, rfl⟩
  | tail _ hflows ih =>
    obtain ⟨f, hf, rfl⟩ := ih
    obtain ⟨m, hstep⟩ := hflows.exists_step d (hf.geometry ▸ hg)
    exact ⟨_, hf.step hstep, rfl⟩

/-- Along a short way a path stays within the limit. -/
theorem exists_reachesWithin {maxBackJumps : Int} {n : Nat} (hlimit : maxBackJumps < Int64.maxValue.toInt)
    (hg : f.machine.cache.geometry.divides = true) (h : p.Walk n f.pc pc) (hj : f.jumps.toInt + n ≤ maxBackJumps) :
    ∃ f', ReachesWithin p d maxBackJumps f f' ∧ ¬ maxBackJumps < f'.jumps.toInt ∧ f'.pc = pc := by
  generalize hpc : f.pc = start at h
  induction h generalizing f with
  | nil => exact ⟨f, .refl, by omega, hpc⟩
  | @cons n start next pc flows rest ih =>
    subst hpc
    obtain ⟨m, hstep⟩ := flows.exists_step d hg
    have hjumps := jumps_goTo (f := f) (by omega) next m
    have hle : (f.goTo next m).jumps.toInt + n ≤ maxBackJumps := by
      rw [hjumps]
      split <;> omega
    obtain ⟨f', hreach, hj', hpc⟩ := ih (hstep.geometry ▸ hg) hle rfl
    exact ⟨f', .head ⟨by omega, step_iff.mpr ⟨_, _, hstep, rfl⟩⟩ hreach, hj', hpc⟩

end Path

/-! ### The list of executions -/

variable {maxBackJumps : Int}

theorem enumerate_ne_fault (hg : g.divides = true) {cause : Fault} :
    enumerate p g d maxBackJumps ≠ some (.error (.fault cause)) := by
  intro h
  obtain ⟨f, hf, hrefused⟩ := enumerate_eq_error h
  cases hrefused with
  | fault op access =>
    obtain ⟨m, hm⟩ := Machine.exists_touch d (m := f.machine) (hf.geometry ▸ hg) (p.fetch f.pc).arg
    rw [hm] at access
    cases access

theorem enumerate_ne_invalidOpcode (hdefined : ∀ pc, p.Reachable pc → (p.opAt pc).isDefined = true) {op : Opcode} :
    enumerate p g d maxBackJumps ≠ some (.error (.invalidOpcode op pc)) := by
  intro h
  obtain ⟨f, hf, hrefused⟩ := enumerate_eq_error h
  cases hrefused with
  | invalidOpcode found meaningless =>
    have hop := hdefined f.pc hf.reachable
    rw [found, meaningless] at hop
    cases hop

/-- Where all operations are defined, only a clock that wraps around keeps the executions from being
    listed, if the search for them ends. -/
theorem eq_ok_or_overflow_of_enumerate (hg : g.divides = true)
    (hdefined : ∀ pc, p.Reachable pc → (p.opAt pc).isDefined = true) {result : Except PathError (List Run)}
    (h : enumerate p g d maxBackJumps = some result) :
    (∃ list, result = .ok list) ∨ result = .error .clockOverflow ∧ ∃ pc, p.Reachable pc ∧ p.opAt pc = .halt := by
  cases result with
  | ok list => exact Or.inl ⟨list, rfl⟩
  | error e =>
    cases e with
    | invalidOpcode => exact absurd h (enumerate_ne_invalidOpcode hdefined)
    | fault => exact absurd h (enumerate_ne_fault hg)
    | clockOverflow =>
      obtain ⟨f, hf, hrefused⟩ := enumerate_eq_error h
      cases hrefused with
      | clockOverflow op => exact Or.inr ⟨rfl, f.pc, hf.reachable, op⟩

theorem eq_nil_of_enumerate (hg : g.divides = true) (hdefined : ∀ pc, p.Reachable pc → (p.opAt pc).isDefined = true)
    (hendless : ∀ pc, p.Reachable pc → p.opAt pc ≠ .halt) {result : Except PathError (List Run)}
    (h : enumerate p g d maxBackJumps = some result) : result = .ok [] := by
  rcases eq_ok_or_overflow_of_enumerate hg hdefined h with ⟨list, rfl⟩ | ⟨-, pc, hpc, hop⟩
  · have hlist : list = [] := by
      refine List.eq_nil_iff_forall_not_mem.mpr fun r hr => ?_
      obtain ⟨f, hf, -, hop, -⟩ := (mem_enumerate h).mp hr
      exact hendless f.pc hf.reaches.reachable hop
    rw [hlist]
  · exact absurd hop (hendless pc hpc)

/-- A limit of as many backward jumps as there are instructions leaves room for a path to each place. -/
theorem exists_reachesWithin_start (hg : g.divides = true) (d : Durations) (hpc : p.Reachable pc)
    (hle : p.code.length ≤ maxBackJumps) (hlimit : maxBackJumps < Int64.maxValue.toInt) :
    ∃ f, Path.ReachesWithin p d maxBackJumps (.start (.empty g)) f ∧ ¬ maxBackJumps < f.jumps.toInt ∧ f.pc = pc := by
  obtain ⟨n, hn, hwalk⟩ := hpc.exists_walk
  refine Path.exists_reachesWithin (f := .start (.empty g)) hlimit hg hwalk ?_
  have hstart : (Path.start (.empty g)).jumps.toInt = 0 := Int64.toInt_zero
  omega

theorem exists_enumerate_run (hg : g.divides = true) (hdefined : ∀ pc, p.Reachable pc → (p.opAt pc).isDefined = true)
    (hpc : p.Reachable pc) (hop : p.opAt pc = .halt) (hle : p.code.length ≤ maxBackJumps)
    (hlimit : maxBackJumps < Int64.maxValue.toInt) :
    (∃ r list, enumerate p g d maxBackJumps = some (.ok (r :: list))) ∨
      enumerate p g d maxBackJumps = some (.error .clockOverflow) := by
  obtain ⟨f, hf, hj, rfl⟩ := exists_reachesWithin_start hg d hpc hle hlimit
  obtain ⟨result, h⟩ := exists_enumerate p g d hlimit
  rcases eq_ok_or_overflow_of_enumerate hg hdefined h with ⟨list, rfl⟩ | ⟨rfl, -⟩
  · have hrun := (mem_enumerate h).mpr ⟨f, hf, hj, hop, rfl⟩
    cases list with
    | nil => cases hrun
    | cons r list => exact Or.inl ⟨r, list, h⟩
  · exact Or.inr h

theorem exists_enumerate_error (hg : g.divides = true) (hpc : p.Reachable pc) (hop : (p.opAt pc).isDefined = false)
    (hle : p.code.length ≤ maxBackJumps) (hlimit : maxBackJumps < Int64.maxValue.toInt) :
    ∃ e, enumerate p g d maxBackJumps = some (.error e) := by
  obtain ⟨f, hf, hj, rfl⟩ := exists_reachesWithin_start hg d hpc hle hlimit
  obtain ⟨result, h⟩ := exists_enumerate p g d hlimit
  cases result with
  | error e => exact ⟨e, h⟩
  | ok list => exact absurd h ((Path.Refused.invalidOpcode rfl hop).enumerate_ne_ok hf hj)

end CacheTiming
