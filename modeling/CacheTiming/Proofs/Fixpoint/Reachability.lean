import CacheTiming.Proofs.Fixpoint.Schedule
import CacheTiming.Proofs.Fixpoint.Stops
import CacheTiming.Proofs.Machine.Reachability

/-! What a verdict says about the places of a program.

A search only comes to places to which the program leads, whatever its domain does. If the domain is
sound, a search that comes to its end has left out none of them: each is reached by a machine, and that
machine is covered. -/

namespace CacheTiming

variable {μ σ : Type}

namespace Fixpoint

variable {D : Domain μ σ} {limits : Limits} {p : Program} {s s' t : Search μ σ} {loc : Location} {st : σ} {v : Visit σ}

/-! ### Every domain -/

theorem propagate_final {source : Location} {pc : UInt64} (h : propagate D limits source pc st t = .ok () s')
    (ht : t.final = s.final) : s'.final = s.final :=
  (propagate_eq_ok h).unchanged.2.trans ht

/-- Only a halt changes the final state. -/
theorem interpret_final (h : interpret D limits p loc st s = .ok () s') :
    s'.final = s.final ∨ p.opAt loc.pc = .halt := by
  cases interpret_eq_ok h with
  | halt op run => exact Or.inr op
  | touch op access run => exact Or.inl (propagate_final run rfl)
  | bottom op access eq => exact Or.inl (eq ▸ rfl)
  | elapse op pause run => exact Or.inl (propagate_final run rfl)
  | branch op pass take => exact Or.inl (propagate_final take (propagate_final pass rfl))
  | jump op run => exact Or.inl (propagate_final run rfl)

theorem isDefined_of_interpret (h : interpret D limits p loc st s = .ok () s') : (p.opAt loc.pc).isDefined = true := by
  cases interpret_eq_ok h <;> simp_all [Opcode.isDefined]

/-- The search is at places to which the program leads, and has a final state only if one of these halts. -/
structure Search.Grounded (p : Program) (s : Search μ σ) : Prop where
  places : s.Within fun loc => p.Reachable loc.pc
  halts : s.final ≠ none → ∃ pc, p.Reachable pc ∧ p.opAt pc = .halt

theorem grounded_start (D : Domain μ σ) (m : μ) : (Search.start D m).Grounded p where
  places := within_start D m .refl
  halts h := absurd rfl h

theorem Round.grounded (h : Round D limits p s loc v s') (hs : s.Grounded p) : s'.Grounded p where
  places := h.within hs.places fun hloc hflows => .tail hloc hflows
  halts hfinal := by
    rcases interpret_final h.run with heq | hop
    · exact hs.halts (heq ▸ hfinal)
    · exact ⟨loc.pc, hs.places loc v h.known, hop⟩

theorem Rounds.grounded {locs : List Location} (h : Rounds D limits p s locs t) (hs : s.Grounded p) : t.Grounded p := by
  induction h with
  | nil => exact hs
  | cons round _ ih => exact ih (round.grounded hs)

/-! ### Sound domains -/

variable {R : Reading μ σ} {d : Durations}

/-- The search covers all machines on the way from `x₀`, and all that it has interpreted is defined. -/
def Search.Complete (γ : σ → Machine → Prop) (p : Program) (d : Durations) (x₀ : Machine) (s : Search μ σ) : Prop :=
  ∃ seen, s.Covering γ p d x₀ seen ∧ ∀ pc st, seen pc st → (p.opAt pc).isDefined = true

theorem Rounds.complete (hR : R.Sound D d) {locs : List Location} (h : Rounds D limits p s locs t) (hs : s.Holds R) :
    R.Later s.memory t.memory ∧ ∀ n x₀, R.Later t.memory n → s.Complete (R.Covers n) p d x₀ →
      t.Complete (R.Covers n) p d x₀ := by
  induction h with
  | nil => exact ⟨hR.refl _, fun _ _ _ => id⟩
  | @cons s t u loc v locs round rest ih =>
    obtain ⟨ht, hlater⟩ := (hs.popped round.known).interpret hR (hs.visits round.known) round.run
    obtain ⟨hend, hcomplete⟩ := ih ht
    refine ⟨hR.trans hlater hend, fun n x₀ hn hc => hcomplete n x₀ hn ?_⟩
    obtain ⟨seen, hcover, hdefined⟩ := hc
    refine ⟨_, hcover.interpret hR hs round.known round.run (hR.trans hend hn), ?_⟩
    rintro pc st (hseen | ⟨rfl, -⟩)
    · exact hdefined pc st hseen
    · exact isDefined_of_interpret round.run

/-- When nothing waits, the search has interpreted every place that a machine comes to. -/
theorem Search.Complete.reachable {γ : σ → Machine → Prop} {cache : RecencyCache}
    (h : s.Complete γ p d { cache }) (hnone : ∀ l, l ∉ s.pending) (hcache : cache.geometry.divides = true)
    (pc : UInt64) (hpc : p.Reachable pc) : (p.opAt pc).isDefined = true ∧ (p.opAt pc = .halt → s.final ≠ none) := by
  obtain ⟨seen, hcover, hdefined⟩ := h
  obtain ⟨f, hf, rfl⟩ := Path.exists_reaches cache d hcache hpc
  obtain ⟨st, hseen, hx⟩ := hcover.reached hnone (f := .start cache) ⟨rfl, rfl⟩ hf
  refine ⟨hdefined f.pc st hseen, fun hop hfinal => ?_⟩
  obtain ⟨final, heq, -⟩ := hcover.halted hseen hx hop
  rw [hfinal] at heq
  cases heq

end Fixpoint

/-! ### Verdicts -/

/-- What a verdict says about the places to which a program leads. -/
structure Verdict.Describes (p : Program) (v : Verdict σ) : Prop where
  converged : ∀ final, v = .converged final →
    (∀ pc, p.Reachable pc → (p.opAt pc).isDefined = true) ∧ ∃ pc, p.Reachable pc ∧ p.opAt pc = .halt
  noFeasiblePath : v = .gaveUp .noFeasiblePath →
    ∀ pc, p.Reachable pc → (p.opAt pc).isDefined = true ∧ p.opAt pc ≠ .halt
  invalidOpcode : v = .gaveUp .invalidOpcode → ∃ pc, p.Reachable pc ∧ (p.opAt pc).isDefined = false

theorem Reading.Sound.describes {R : Reading μ σ} {D : Domain μ σ} {d : Durations} (hR : R.Sound D d) (limits : Limits)
    (p : Program) {m : μ} (hm : R.Sane m) (hinit : R.Fits m D.init) {cache : RecencyCache}
    (hcache : cache.geometry.divides = true) (hcover : ∀ n, R.Later m n → R.Covers n D.init { cache }) :
    (CacheTiming.analyze D limits p m).verdict.Describes p := by
  rw [analyze_eq_ofResult]
  obtain ⟨locs, t, hrounds, hend⟩ := Fixpoint.exists_rounds D limits p (Fixpoint.bound p limits)
    (Fixpoint.scheduled_start D m)
  have hground := hrounds.grounded (Fixpoint.grounded_start D m)
  rcases hend with hloop | ⟨hnone, hloop⟩ | ⟨loc, v, e, u, hv, hrun, hloop⟩
  · rw [hloop]
    constructor <;> simp [Analysis.ofResult]
  · -- Nothing waits any more: every place was interpreted, and the final state tells whether one halts.
    rw [hloop]
    obtain ⟨hlater, hcomplete⟩ := hrounds.complete hR (Fixpoint.holds_start hm hinit)
    have ht := hcomplete t.memory { cache } (hR.refl _)
      ⟨_, Fixpoint.covering_start (hcover _ hlater), fun _ _ => False.elim⟩
    have hplaces := ht.reachable hnone hcache
    cases hfinish : Fixpoint.finish t with
    | ok final u =>
      have hfinal := (Fixpoint.finish_eq_ok hfinish).1
      constructor
      · exact fun _ _ => ⟨fun pc hpc => (hplaces pc hpc).1, hground.halts (by simp [hfinal])⟩
      · simp [Analysis.ofResult]
      · simp [Analysis.ofResult]
    | error e u =>
      obtain ⟨rfl, hfinal⟩ := Fixpoint.finish_eq_error hfinish
      constructor
      · simp [Analysis.ofResult]
      · exact fun _ pc hpc => ⟨(hplaces pc hpc).1, fun hop => (hplaces pc hpc).2 hop hfinal⟩
      · simp [Analysis.ofResult]
  · -- An instruction has stopped the search; of the causes only an undefined operation says something here.
    rw [hloop]
    rcases Fixpoint.interpret_eq_error hrun with hmerging | ⟨rfl, hop⟩
    · cases hmerging <;> constructor <;> simp [Analysis.ofResult]
    · constructor
      · simp [Analysis.ofResult]
      · simp [Analysis.ofResult]
      · exact fun _ => ⟨loc.pc, hground.places loc v hv, hop⟩

end CacheTiming
