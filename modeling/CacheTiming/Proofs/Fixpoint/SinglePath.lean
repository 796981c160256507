import CacheTiming.Proofs.Fixpoint.Coverage
import CacheTiming.Proofs.Machine.SinglePath

/-! Searches in programs with a single path.

Such a search has one location to interpret at a time, and every location that it goes on to is new. It
neither joins nor compares states, so a domain whose operations follow a machine step by step ends with
a state for the machine that has halted. -/

namespace CacheTiming

variable {μ σ : Type}

/-- States and machines that are related by `E` stay related while fewer than `bound` steps were
    observed. -/
structure Domain.Simulates (D : Domain μ σ) (d : Durations) (bound : Nat) (E : μ → σ → Machine → Prop) : Prop where
  access : ∀ {m s x}, E m s x → ∀ address, ∃ x', x.touch d address = .ok x'
  touch : ∀ {m s x x' address}, E m s x → x.trace.length < bound → x.touch d address = .ok x' →
    ∃ s' m', D.touch s address m = .ok s' m' ∧ E m' s' x'
  elapse : ∀ {m s x} (time : UInt64), E m s x → x.trace.length < bound →
    ∃ s' m', D.elapse s time m = .ok s' m' ∧ E m' s' (x.elapse d time)

namespace Fixpoint

/-- The location of a place before any backward jump. -/
def atPlace (pc : UInt64) : Location := { pc, depth := 0 }

/-- A search in which nothing waits, nothing behind a place was reached and no path has halted. -/
structure Search.Idle (s : Search μ σ) (pc : UInt64) : Prop where
  pending : ∀ loc, loc ∉ s.pending
  fresh : ∀ {loc : Location}, pc.toNat < loc.pc.toNat → s.visits[loc]? = none
  final : s.final = none

/-- A search in which just one place waits, with a state, and nothing behind it was reached. -/
structure Search.Linear (s : Search μ σ) (pc : UInt64) (st : σ) : Prop where
  pending : ∀ {loc : Location}, loc ∈ s.pending ↔ loc = atPlace pc
  visit : s.visits[atPlace pc]? = some { state := st }
  fresh : ∀ {loc : Location}, pc.toNat < loc.pc.toNat → s.visits[loc]? = none
  final : s.final = none

variable {D : Domain μ σ} {limits : Limits} {p : Program} {d : Durations} {s : Search μ σ} {pc pc' : UInt64} {st : σ}

theorem Search.Linear.pop (h : s.Linear pc st) :
    Fixpoint.pop s = .ok (some (atPlace pc, st)) (s.popped (atPlace pc) { state := st }) ∧
      (s.popped (atPlace pc) { state := st }).Idle pc := by
  have hmin : s.pending.min? = some (atPlace pc) := by
    rw [Std.ExtTreeSet.min?_eq_some_iff_mem_and_forall]
    refine ⟨h.pending.mpr rfl, fun loc hloc => ?_⟩
    rw [h.pending.mp hloc]
    simp
  refine ⟨pop_of_min hmin h.visit, fun loc hloc => ?_, fun {loc} hlt => ?_, h.final⟩
  · obtain ⟨hne, hloc⟩ := mem_popped.mp hloc
    exact hne (h.pending.mp hloc)
  · have hne : loc ≠ atPlace pc := by
      rintro rfl
      exact Nat.lt_irrefl _ hlt
    rw [visits_popped, if_neg hne, h.fresh hlt]

/-- A state that is passed on to a later place waits there alone. -/
theorem Search.Idle.propagate (h : s.Idle pc) (hlt : pc.toNat < pc'.toNat) :
    ∃ s', Fixpoint.propagate D limits (atPlace pc) pc' st s = .ok () s' ∧ s'.memory = s.memory ∧ s'.Linear pc' st := by
  have hback : (atPlace pc).goesBack pc' = false := by
    simp only [Location.goesBack, atPlace, decide_eq_false_iff_not, UInt64.le_iff_toNat_le]
    omega
  have hnext : (atPlace pc).next limits.unroll pc' = atPlace pc' := by
    rw [Location.next, hback]
    rfl
  have hnew : s.visits[(atPlace pc).next limits.unroll pc']? = none := h.fresh (hnext ▸ hlt)
  refine ⟨_, propagate_fresh hnew, rfl, ?_⟩
  rw [hnext]
  refine ⟨fun {loc} => ?_, ?_, fun {loc} hloc => ?_, h.final⟩
  · rw [mem_queue]
    exact ⟨fun hloc => hloc.resolve_right (h.pending loc), Or.inl⟩
  · rw [visits_queue, if_pos rfl]
  · have hne : loc ≠ atPlace pc' := by
      rintro rfl
      exact Nat.lt_irrefl _ hloc
    rw [visits_queue, if_neg hne]
    exact h.fresh (Nat.lt_trans hlt hloc)

/-! ### One step -/

theorem interpret_halt {loc : Location} (hop : p.opAt loc.pc = .halt) (hf : s.final = none) :
    interpret D limits p loc st s = .ok () { s.logging (.step loc .halt) with final := some st } :=
  interpret_conclude hop (conclude_of_none hf)

variable {E : μ → σ → Machine → Prop} {x x' : Machine}

/-- A step of the machine is a step of the search, and what it leads to waits alone. -/
theorem Search.Idle.interpret (hS : D.Simulates d p.code.length E) (hp : p.SinglePath)
    (hlen : p.code.length < UInt64.size) (h : s.Idle pc) (hE : E s.memory st x) (hx : x.trace.length < p.code.length)
    (hstep : Machine.Step p d pc x pc' x') :
    ∃ st' s', Fixpoint.interpret D limits p (atPlace pc) st s = .ok () s' ∧ s'.Linear pc' st' ∧ E s'.memory st' x' := by
  have hlt := hp.lt_of_step hlen hstep
  cases hstep with
  | touch op run =>
    obtain ⟨st', m', ht, hE'⟩ := hS.touch hE hx run
    have hidle : { s.logging (.step (atPlace pc) .touch) with memory := m' }.Idle pc := ⟨h.pending, h.fresh, h.final⟩
    obtain ⟨s', hs', hm, hlinear⟩ := hidle.propagate hlt
    exact ⟨st', s', interpret_touch op ht hs', hlinear, hm ▸ hE'⟩
  | elapse op =>
    obtain ⟨st', m', ht, hE'⟩ := hS.elapse _ hE hx
    have hidle : { s.logging (.step (atPlace pc) .elapse) with memory := m' }.Idle pc := ⟨h.pending, h.fresh, h.final⟩
    obtain ⟨s', hs', hm, hlinear⟩ := hidle.propagate hlt
    exact ⟨st', s', interpret_elapse op ht hs', hlinear, hm ▸ hE'⟩
  | pass op => exact absurd op (hp.op_ne_branch pc)
  | take op => exact absurd op (hp.op_ne_branch pc)
  | jump op =>
    have hidle : (s.logging (.step (atPlace pc) .jump)).Idle pc := ⟨h.pending, h.fresh, h.final⟩
    obtain ⟨s', hs', hm, hlinear⟩ := hidle.propagate hlt
    exact ⟨st, s', interpret_jump op hs', hlinear, hm ▸ hE⟩

/-! ### The whole search -/

theorem loop_of_linear (limits : Limits) (hS : D.Simulates d p.code.length E) (hp : p.SinglePath)
    (hlen : p.code.length < UInt64.size) :
    ∀ {fuel : Nat} {s : Search μ σ} {f : Path} {st : σ}, p.code.length - f.pc.toNat + 2 ≤ fuel →
      s.Linear f.pc st → E s.memory st f.machine → f.machine.trace.length ≤ f.pc.toNat →
        ∃ g final e, Path.Reaches p d f g ∧ p.opAt g.pc = .halt ∧ loop D limits p fuel s = .ok final e ∧
          E e.memory final g.machine
  | 0, _, _, _, hfuel, _, _, _ => by omega
  | 1, _, _, _, hfuel, _, _, _ => by omega
  | fuel + 2, s, f, st, hfuel, hs, hE, htrace => by
    obtain ⟨hpop, hidle⟩ := hs.pop
    by_cases hop : p.opAt f.pc = .halt
    · -- The next round finds nothing that waits and ends the search.
      have hint : interpret D limits p (atPlace f.pc) st _ = _ := interpret_halt hop hidle.final
      obtain ⟨e, hfinish, hmem⟩ := finish_of_final (s := { (s.popped (atPlace f.pc) { state := st }).logging
        (.step (atPlace f.pc) .halt) with final := some st }) rfl
      refine ⟨f, st, e, .refl, hop, ?_, hmem ▸ hE⟩
      refine bind_eq_ok.mpr ⟨_, _, hpop, bind_eq_ok.mpr ⟨_, _, hint, ?_⟩⟩
      exact bind_eq_ok.mpr ⟨_, _, pop_of_not_mem hidle.pending, hfinish⟩
    · -- The search goes on at a later place, for which the fuel that is left is enough.
      obtain ⟨pc', x', hstep⟩ := hp.exists_step hop (hS.access hE)
      have hlt := hp.lt_of_step hlen hstep
      have hplace := hstep.lt_length
      obtain ⟨st', s', hint, hlinear, hE'⟩ := hidle.interpret hS hp hlen hE (by omega) hstep
      have hlength := hstep.length_trace_le
      have hfuel' : p.code.length - (f.goTo pc' x').pc.toNat + 2 ≤ fuel + 1 := by
        show p.code.length - pc'.toNat + 2 ≤ fuel + 1
        omega
      have htrace' : x'.trace.length ≤ pc'.toNat := by omega
      obtain ⟨g, final, e, hreach, hhalt, hloop, hfinal⟩ := loop_of_linear limits hS hp hlen hfuel' hlinear hE' htrace'
      refine ⟨g, final, e, .head (Path.step_iff.mpr ⟨pc', x', hstep, rfl⟩) hreach, hhalt, ?_, hfinal⟩
      exact bind_eq_ok.mpr ⟨_, _, hpop, bind_eq_ok.mpr ⟨_, _, hint, hloop⟩⟩

theorem length_lt_bound (p : Program) (limits : Limits) : p.code.length + 2 ≤ bound p limits := by
  have hplaces : 2 * p.code.length + 1 ≤ (2 * p.code.length + 1) * (limits.unroll.toNat + 1) :=
    Nat.le_mul_of_pos_right _ (Nat.succ_pos _)
  have hrounds : 0 < (2 * p.code.length + 1) * (2 * p.code.length + 1) * (limits.rounds.toNat + 1) :=
    Nat.mul_pos (Nat.mul_pos (Nat.succ_pos _) (Nat.succ_pos _)) (Nat.succ_pos _)
  simp only [bound]
  omega

end Fixpoint

/-- An analysis of a program with a single path ends with a state for the machine that has halted. -/
theorem Domain.Simulates.analyze {D : Domain μ σ} {d : Durations} {p : Program} {E : μ → σ → Machine → Prop}
    (hS : D.Simulates d p.code.length E) (hp : p.SinglePath) (hlen : p.code.length < UInt64.size) (limits : Limits)
    {cache : RecencyCache} {m : μ} (hE : E m D.init { cache }) :
    ∃ f final, Path.Execution p d cache f ∧ (CacheTiming.analyze D limits p m).verdict = .converged final ∧
      E (CacheTiming.analyze D limits p m).memory final f.machine := by
  have hlinear : (Fixpoint.Search.start D m).Linear 0 D.init := by
    refine ⟨Fixpoint.mem_start, ?_, fun {loc} hloc => ?_, rfl⟩
    · rw [Fixpoint.visits_start]
      exact if_pos rfl
    · have hne : loc ≠ .start := by
        rintro rfl
        exact Nat.lt_irrefl _ hloc
      rw [Fixpoint.visits_start, if_neg hne]
  obtain ⟨f, final, e, hreach, hhalt, hloop, hfinal⟩ := Fixpoint.loop_of_linear limits hS hp hlen
    (f := Path.start cache) (Fixpoint.length_lt_bound p limits) hlinear hE (Nat.le_refl 0)
  refine ⟨f, final, ⟨hreach, hhalt⟩, ?_⟩
  rw [CacheTiming.analyze, hloop]
  exact ⟨rfl, hfinal⟩

end CacheTiming
