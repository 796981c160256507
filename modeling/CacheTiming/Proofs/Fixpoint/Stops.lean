import CacheTiming.Proofs.Fixpoint.Steps
import CacheTiming.Proofs.Machine.Execution

/-! Why the parts of a search stop it.

Merging and comparing states stops a search by a failure of the domain or, after a backward jump, for
want of a fixpoint. An undefined operation stops it by its own cause, and its end for want of a path that
halts. -/

namespace CacheTiming.Fixpoint

variable {μ σ α : Type} {D : Domain μ σ} {limits : Limits} {p : Program} {s s' : Search μ σ}
  {loc source : Location} {pc : UInt64} {st : σ} {e : Stop}

/-- What a search can stop with while it passes a state on, where `looped` tells whether it has met a
    backward jump. -/
inductive Stop.Merging (looped : Prop) : Stop → Prop where
  | noFixpoint (h : looped) : Merging looped (.gaveUp .noFixpoint)
  | aborted (cause : Failure) : Merging looped (.aborted cause)

theorem Stop.Merging.mono {looped looped' : Prop} (h : e.Merging looped) (himp : looped → looped') :
    e.Merging looped' := by
  cases h with
  | noFixpoint h => exact .noFixpoint (himp h)
  | aborted cause => exact .aborted cause

theorem error_of_bind {β : Type} {x : SearchM μ σ α} {f : α → SearchM μ σ β} {a : α} {t : Search μ σ}
    (hx : x s = .ok a t) (h : (x >>= f) s = .error e s') : f a t = .error e s' := by
  rcases bind_eq_error.mp h with h | ⟨a', t', h, hf⟩
  · rw [hx] at h
    cases h
  · rw [hx] at h
    cases h
    exact hf

theorem attempt_ne_error {action : Action μ α} : attempt action s ≠ .error e s' := by
  intro h
  cases ha : action s.memory with
  | ok a m =>
    rw [attempt_of_ok ha] at h
    cases h
  | error f m =>
    rw [attempt_of_error ha] at h
    cases h

theorem attempt_eq_ok {action : Action μ α} {r : Except Failure α} (h : attempt action s = .ok r s') :
    ∃ m, s' = { s with memory := m } := by
  cases ha : action s.memory with
  | ok a m =>
    rw [attempt_of_ok ha] at h
    cases h
    exact ⟨m, rfl⟩
  | error f m =>
    rw [attempt_of_error ha] at h
    cases h
    exact ⟨m, rfl⟩

theorem demand_eq_error {action : Action μ α} {looped : Prop} (h : demand action s = .error e s') :
    e.Merging looped := by
  rcases bind_eq_error.mp h with h | ⟨r, t, -, h⟩
  · exact absurd h attempt_ne_error
  · cases r with
    | ok a => cases h
    | error f =>
      cases h
      exact .aborted f

theorem merge_eq_error {action : Action μ σ} (h : merge loc action s = .error e s') : e.Merging (s.loops = true) := by
  rcases bind_eq_error.mp h with h | ⟨r, t, hr, h⟩
  · exact absurd h attempt_ne_error
  · obtain ⟨m, rfl⟩ := attempt_eq_ok hr
    cases r with
    | ok a => cases h
    | error f =>
      replace h := error_of_bind rfl h
      split at h
      · rename_i hloops
        cases error_of_bind rfl h
        exact .noFixpoint (Bool.and_eq_true_iff.mp hloops).1
      · cases h
        exact .aborted f

theorem propagate_eq_error (h : propagate D limits source pc st s = .error e s') :
    e.Merging (s.loops = true ∨ source.goesBack pc = true) := by
  unfold propagate at h
  replace h := error_of_bind rfl h
  replace h := error_of_bind rfl h
  cases hv : s.visits[source.next limits.unroll pc]? with
  | none =>
    simp only [hv] at h
    cases h
  | some v =>
    simp only [hv] at h
    replace h := error_of_bind rfl h
    split at h
    · rcases bind_eq_error.mp h with h | ⟨_, _, -, h⟩
      · exact (merge_eq_error h).mono Bool.or_eq_true_iff.mp
      · cases h
    · rcases bind_eq_error.mp h with h | ⟨covered, _, -, h⟩
      · exact demand_eq_error h
      · split at h
        · cases h
        · split at h
          · rename_i hback
            refine Stop.Merging.mono (?_ : e.Merging True) fun _ => Or.inr hback
            split at h
            · replace h := error_of_bind rfl h
              rcases bind_eq_error.mp h with h | ⟨_, _, h₁, -⟩
              · cases h
                exact .noFixpoint trivial
              · cases h₁
            · rcases bind_eq_error.mp h with h | ⟨_, _, -, h⟩
              · exact (merge_eq_error h).mono fun _ => trivial
              · cases h
          · cases h

theorem conclude_eq_error (h : conclude D loc st s = .error e s') : e.Merging (s.loops = true) := by
  unfold conclude at h
  replace h := error_of_bind rfl h
  cases hf : s.final with
  | none =>
    simp only [hf] at h
    cases h
  | some f =>
    simp only [hf] at h
    rcases bind_eq_error.mp h with h | ⟨_, _, -, h⟩
    · exact merge_eq_error h
    · cases h

/-- Whether a search has met a backward jump once it has interpreted the instruction at a location. -/
def Search.Looped (s : Search μ σ) (p : Program) (loc : Location) : Prop :=
  s.loops = true ∨ ∃ pc, p.Flows loc.pc pc ∧ loc.goesBack pc = true

theorem Search.looped_of_propagate (hpc : p.Flows loc.pc pc) (h : s.loops = true ∨ loc.goesBack pc = true) :
    s.Looped p loc := h.imp_right fun hback => ⟨pc, hpc, hback⟩

/-- An interpreted instruction stops the search by merging states or because it is undefined. -/
theorem interpret_eq_error (h : interpret D limits p loc st s = .error e s') :
    e.Merging (s.Looped p loc) ∨ e = .gaveUp .invalidOpcode ∧ (p.opAt loc.pc).isDefined = false := by
  unfold interpret at h
  replace h := error_of_bind rfl h
  cases hop : (p.fetch loc.pc).op with
  | «undefined» =>
    simp only [hop] at h
    cases h
    exact Or.inr ⟨rfl, by rw [Program.opAt, hop]; rfl⟩
  | halt =>
    simp only [hop] at h
    exact Or.inl ((conclude_eq_error h).mono Or.inl)
  | branch =>
    simp only [hop] at h
    refine Or.inl ?_
    rcases bind_eq_error.mp h with h | ⟨_, t, h₁, h⟩
    · exact (propagate_eq_error h).mono (Search.looped_of_propagate (.next (Or.inr (Or.inr hop))))
    · refine (propagate_eq_error h).mono fun hloops => ?_
      rw [(propagate_eq_ok h₁).unchanged.1] at hloops
      rcases hloops with hloops | hback
      · exact Search.looped_of_propagate (.next (Or.inr (Or.inr hop))) (Bool.or_eq_true_iff.mp hloops)
      · exact Or.inr ⟨_, .target (Or.inl hop), hback⟩
  | jump =>
    simp only [hop] at h
    exact Or.inl ((propagate_eq_error h).mono (Search.looped_of_propagate (.target (Or.inr hop))))
  | elapse =>
    simp only [hop] at h
    rcases bind_eq_error.mp h with h | ⟨_, _, h₁, h⟩
    · exact Or.inl (demand_eq_error h)
    · obtain ⟨m, -, rfl⟩ := demand_eq_ok h₁
      exact Or.inl ((propagate_eq_error h).mono (Search.looped_of_propagate (.next (Or.inr (Or.inl hop)))))
  | touch =>
    simp only [hop] at h
    rcases bind_eq_error.mp h with h | ⟨r, _, h₁, h⟩
    · exact absurd h attempt_ne_error
    · obtain ⟨m, rfl⟩ := attempt_eq_ok h₁
      refine Or.inl ?_
      cases r with
      | ok r => exact (propagate_eq_error h).mono (Search.looped_of_propagate (.next (Or.inl hop)))
      | error f =>
        cases f with
        | bottom => cases h
        | trace =>
          cases h
          exact .aborted _
        | fault =>
          cases h
          exact .aborted _

theorem finish_eq_error (h : finish s = .error e s') : e = .gaveUp .noFeasiblePath ∧ s.final = none := by
  unfold finish at h
  replace h := error_of_bind rfl h
  cases hf : s.final with
  | none =>
    simp only [hf] at h
    cases h
    exact ⟨rfl, rfl⟩
  | some f =>
    simp only [hf] at h
    cases error_of_bind rfl (error_of_bind rfl h)

end CacheTiming.Fixpoint
