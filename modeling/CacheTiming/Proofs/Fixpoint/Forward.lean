import CacheTiming.Proofs.Fixpoint.Schedule
import CacheTiming.Proofs.Fixpoint.Stops
import Mathlib.Data.List.GetD

/-! Searches in programs whose jumps all go forward.

Such a search sweeps over the locations once: whatever it has interpreted comes before all that waits.
So a state that is passed on finds either nothing or a state that waits as well, no states are compared
or widened, and the search never ends for want of a fixpoint. -/

namespace CacheTiming

/-- All branches and jumps lead to places behind them. -/
def Program.Forward (p : Program) : Prop :=
  ∀ place, (h : place < p.code.length) → p.code[place].op.takesLabel = true → place < p.code[place].arg.toNat

instance (p : Program) : Decidable p.Forward :=
  inferInstanceAs (Decidable (∀ place, (h : place < p.code.length) → p.code[place].op.takesLabel = true →
    place < p.code[place].arg.toNat))

theorem Program.Forward.lt_of_flows {p : Program} {pc pc' : UInt64} (hp : p.Forward)
    (hlen : p.code.length < UInt64.size) (h : p.Flows pc pc') : pc.toNat < pc'.toNat := by
  have hlt := h.lt_length
  cases h with
  | next op => exact lt_next hlen hlt
  | target op =>
    have hfetch : p.fetch pc = p.code[pc.toNat] := List.getD_eq_getElem _ _ hlt
    rw [hfetch]
    refine hp _ hlt ?_
    rw [opAt, hfetch] at op
    rcases op with op | op <;> rw [op] <;> rfl

theorem Location.goesBack_of_lt {a : Location} {pc : UInt64} (h : a.pc.toNat < pc.toNat) : a.goesBack pc = false := by
  simp only [goesBack, decide_eq_false_iff_not, UInt64.le_iff_toNat_le]
  omega

theorem Location.before_next_of_lt {a : Location} {pc : UInt64} (h : a.pc.toNat < pc.toNat) (unroll : Int) :
    a.before (a.next unroll pc) = true := by
  by_contra hnot
  have hback := (next_of_not_before hnot).1
  rw [goesBack_of_lt h] at hback
  cases hback

namespace Fixpoint

variable {μ σ : Type} {D : Domain μ σ} {limits : Limits} {p : Program} {s s' t : Search μ σ}
  {loc l : Location} {pc : UInt64} {st : σ} {v : Visit σ}

/-- A search between two rounds that has met no backward jump: what it has interpreted comes before all
    that waits. -/
structure Search.Sweeping (s : Search μ σ) : Prop where
  loops : s.loops = false
  before : ∀ {loc l : Location} {v : Visit σ}, s.visits[loc]? = some v → v.done = true → l ∈ s.pending →
    loc.before l = true

/-- A search that interprets a location while it sweeps: all that waits comes later, and nothing later was
    interpreted. -/
structure Search.SweepsFrom (s : Search μ σ) (loc : Location) : Prop where
  loops : s.loops = false
  later : ∀ {l : Location}, l ∈ s.pending → loc.before l = true
  undone : ∀ {l : Location} {v : Visit σ}, s.visits[l]? = some v → loc.before l = true → v.done = false

theorem sweeping_start (D : Domain μ σ) (m : μ) : (Search.start D m).Sweeping where
  loops := rfl
  before hv hd _ := by
    rw [visits_start] at hv
    split at hv
    · cases hv
      cases hd
    · cases hv

theorem Search.Sweeping.popped (h : s.Sweeping) (hmin : s.pending.min? = some loc) :
    (s.popped loc v).SweepsFrom loc where
  loops := h.loops
  later hl := before_of_mem_popped hmin hl
  undone {l w} hw hlater := by
    rw [visits_popped] at hw
    split at hw
    · rename_i heq
      exact absurd (heq ▸ hlater) (Location.before_irrefl _)
    · cases hdone : w.done with
      | false => rfl
      | true =>
        have hbefore := h.before hw hdone (mem_of_min hmin)
        exact absurd (Location.before_trans hlater hbefore) (Location.before_irrefl _)

theorem Search.SweepsFrom.sweeping (h : s.SweepsFrom loc) : s.Sweeping where
  loops := h.loops
  before {a l w} hw hdone hl := by
    have hnot : ¬ loc.before a = true := by
      intro hlater
      rw [h.undone hw hlater] at hdone
      cases hdone
    by_cases heq : a = loc
    · exact heq ▸ h.later hl
    · exact Location.before_trans (Location.before_of_ne_of_not_before heq hnot) (h.later hl)

theorem Search.SweepsFrom.noting (h : s.SweepsFrom loc) (hpc : loc.pc.toNat < pc.toNat) :
    (s.noting (loc.goesBack pc)).SweepsFrom loc where
  loops := by rw [Search.noting, h.loops, Location.goesBack_of_lt hpc]; rfl
  later := h.later
  undone := h.undone

theorem Search.SweepsFrom.queue (h : s.SweepsFrom loc) {m : μ} (hl : loc.before l = true) (hv : v.done = false) :
    (s.queue m l v).SweepsFrom loc where
  loops := h.loops
  later {a} ha := by
    rcases mem_queue.mp ha with rfl | ha
    · exact hl
    · exact h.later ha
  undone {a w} hw hlater := by
    rw [visits_queue] at hw
    split at hw
    · cases hw
      exact hv
    · exact h.undone hw hlater

/-- What becomes of a state that is passed on during a sweep: it is the first one at its location, or it is
    joined to one that waits. -/
theorem Arrival.sweeps {back : Bool} (h : Arrival D limits back l st s s') (hs : s.SweepsFrom loc)
    (hl : loc.before l = true) :
    (s.visits[l]? = none ∧ s' = s.queue s.memory l { state := st }) ∨
      ∃ v r m, s.visits[l]? = some v ∧ v.done = false ∧ D.join v.state st s.memory = .ok r m ∧
        s' = s.queue m l { v with state := r } := by
  have idle : ∀ {v : Visit σ}, s.visits[l]? = some v → ¬ v.done = true := by
    intro v hv hdone
    rw [hs.undone hv hl] at hdone
    cases hdone
  cases h with
  | fresh new eq => exact Or.inl ⟨new, eq⟩
  | join known waiting run eq => exact Or.inr ⟨_, _, _, known, hs.undone known hl, run, eq⟩
  | skip known done _ _ _ => exact absurd done (idle known)
  | widen known done _ _ _ _ _ _ => exact absurd done (idle known)
  | replace known done _ _ _ _ => exact absurd done (idle known)

theorem Search.SweepsFrom.propagate (hs : s.SweepsFrom loc) (hpc : loc.pc.toNat < pc.toNat)
    (h : Fixpoint.propagate D limits loc pc st s = .ok () s') : s'.SweepsFrom loc := by
  have hnext := Location.before_next_of_lt hpc limits.unroll
  have hnoting := hs.noting hpc
  rcases (propagate_eq_ok h).sweeps hnoting hnext with ⟨-, rfl⟩ | ⟨v, r, m, -, hdone, -, rfl⟩
  · exact hnoting.queue hnext rfl
  · exact hnoting.queue hnext hdone

section Forward
variable (hp : p.Forward) (hlen : p.code.length < UInt64.size)
include hp hlen

theorem Search.SweepsFrom.interpret (hs : s.SweepsFrom loc) (h : Fixpoint.interpret D limits p loc st s = .ok () s') :
    s'.SweepsFrom loc := by
  have passed : ∀ {op : Opcode} {m : μ} {pc : UInt64} {r : σ} {t : Search μ σ}, p.Flows loc.pc pc →
      Fixpoint.propagate D limits loc pc r { s.logging (.step loc op) with memory := m } = .ok () t →
        t.SweepsFrom loc := by
    intro op m pc r t hflows run
    have hlog : { s.logging (.step loc op) with memory := m }.SweepsFrom loc := ⟨hs.loops, hs.later, hs.undone⟩
    exact hlog.propagate (hp.lt_of_flows hlen hflows) run
  cases interpret_eq_ok h with
  | halt op run =>
    rcases conclude_eq_ok run with ⟨-, rfl⟩ | ⟨f, r, m, -, -, rfl⟩
    · exact ⟨hs.loops, hs.later, hs.undone⟩
    · exact ⟨hs.loops, hs.later, hs.undone⟩
  | touch op access run => exact passed (.next (Or.inl op)) run
  | bottom op access eq =>
    subst eq
    exact ⟨hs.loops, hs.later, hs.undone⟩
  | elapse op pause run => exact passed (.next (Or.inr (Or.inl op))) run
  | branch op pass take =>
    have hs := passed (.next (Or.inr (Or.inr op))) pass
    exact hs.propagate (hp.lt_of_flows hlen (.target (Or.inl op))) take
  | jump op run => exact passed (.target (Or.inr op)) run

theorem Round.sweeping (h : Round D limits p s loc v s') (hs : s.Sweeping) : s'.Sweeping :=
  ((hs.popped h.first).interpret hp hlen h.run).sweeping

/-- An instruction stops a sweep by a failure of the domain or because it is undefined. -/
theorem Search.SweepsFrom.stops {e : Stop} (hs : s.SweepsFrom loc)
    (h : Fixpoint.interpret D limits p loc st s = .error e s') :
    (∃ cause, e = .aborted cause) ∨ e = .gaveUp .invalidOpcode ∧ (p.opAt loc.pc).isDefined = false := by
  rcases interpret_eq_error h with hmerging | hundefined
  · refine Or.inl ?_
    cases hmerging with
    | noFixpoint hlooped =>
      rcases hlooped with hloops | ⟨pc, hflows, hback⟩
      · rw [hs.loops] at hloops
        cases hloops
      · rw [Location.goesBack_of_lt (hp.lt_of_flows hlen hflows)] at hback
        cases hback
    | aborted cause => exact ⟨cause, rfl⟩
  · exact Or.inr hundefined

theorem loop_ne_noFixpoint (fuel : Nat) (hsched : s.Scheduled) (hs : s.Sweeping) :
    loop D limits p fuel s ≠ .error (.gaveUp .noFixpoint) t := by
  intro h
  induction fuel generalizing s with
  | zero => cases h
  | succ fuel ih =>
    rcases hsched.empty_or_first with hnone | ⟨loc, v, hmin, hv⟩
    · rw [loop_of_empty hnone] at h
      cases (finish_eq_error h).1
    · cases hrun : interpret D limits p loc v.state (s.popped loc v) with
      | ok _ t =>
        have hround : Round D limits p s loc v t := ⟨hmin, hv, hrun⟩
        rw [loop_of_ok hmin hv hrun] at h
        exact ih (hround.scheduled hsched) (hround.sweeping hp hlen hs) h
      | error e t =>
        rw [loop_of_error hmin hv hrun] at h
        cases h
        rcases (hs.popped hmin).stops hp hlen hrun with ⟨cause, hcause⟩ | ⟨hcause, -⟩
        · cases hcause
        · cases hcause

end Forward

/-! ### Operations that a sweep does not use -/

section Unused
variable (widen : σ → σ → Action μ σ) (subseteq : σ → σ → Action μ Bool)

/-- A state that is passed on to a location which was not interpreted yet is neither compared nor widened. -/
theorem propagate_congr (hl : ∀ v, s.visits[loc.next limits.unroll pc]? = some v → v.done = false) :
    propagate { D with widen, subseteq } limits loc pc st s = propagate D limits loc pc st s := by
  unfold propagate
  refine bind_congr_of_ok rfl fun _ t ht => ?_
  cases ht
  refine bind_congr_of_ok rfl fun _ t ht => ?_
  cases ht
  cases hv : s.visits[loc.next limits.unroll pc]? with
  | none => rfl
  | some v =>
    refine bind_congr_of_ok rfl fun _ t ht => ?_
    cases ht
    rw [if_pos (by simp [hl v hv]), if_pos (by simp [hl v hv])]

theorem Search.SweepsFrom.propagate_congr (hs : s.SweepsFrom loc) (hpc : loc.pc.toNat < pc.toNat) :
    Fixpoint.propagate { D with widen, subseteq } limits loc pc st s = Fixpoint.propagate D limits loc pc st s :=
  Fixpoint.propagate_congr widen subseteq fun _ hv => hs.undone hv (Location.before_next_of_lt hpc limits.unroll)

variable (hp : p.Forward) (hlen : p.code.length < UInt64.size)
include hp hlen

theorem Search.SweepsFrom.interpret_congr (hs : s.SweepsFrom loc) :
    Fixpoint.interpret { D with widen, subseteq } limits p loc st s = Fixpoint.interpret D limits p loc st s := by
  unfold Fixpoint.interpret
  refine bind_congr_of_ok rfl fun _ t ht => ?_
  cases ht
  have passed : ∀ {m : μ} {e : Event} {pc : UInt64} {r : σ}, p.Flows loc.pc pc →
      Fixpoint.propagate { D with widen, subseteq } limits loc pc r { s.logging e with memory := m } =
        Fixpoint.propagate D limits loc pc r { s.logging e with memory := m } := by
    intro m e pc r hflows
    have hlog : { s.logging e with memory := m }.SweepsFrom loc := ⟨hs.loops, hs.later, hs.undone⟩
    exact hlog.propagate_congr widen subseteq (hp.lt_of_flows hlen hflows)
  cases op : (p.fetch loc.pc).op with
  | «undefined» => rfl
  | halt => rfl
  | touch =>
    refine bind_congr_of_ok rfl fun r t ht => ?_
    obtain ⟨m, rfl⟩ := attempt_eq_ok ht
    cases r with
    | ok r => exact passed (.next (Or.inl op))
    | error e => cases e <;> rfl
  | elapse =>
    refine bind_congr_of_ok rfl fun r t ht => ?_
    obtain ⟨m, -, rfl⟩ := demand_eq_ok ht
    exact passed (.next (Or.inr (Or.inl op)))
  | branch =>
    refine bind_congr_of_ok (passed (.next (Or.inr (Or.inr op)))) fun _ t ht => ?_
    have hlog : (s.logging (.step loc .branch)).SweepsFrom loc := ⟨hs.loops, hs.later, hs.undone⟩
    have ht := hlog.propagate (hp.lt_of_flows hlen (.next (Or.inr (Or.inr op)))) ht
    exact ht.propagate_congr widen subseteq (hp.lt_of_flows hlen (.target (Or.inl op)))
  | jump => exact passed (.target (Or.inr op))

theorem loop_congr (fuel : Nat) (hsched : s.Scheduled) (hs : s.Sweeping) :
    loop { D with widen, subseteq } limits p fuel s = loop D limits p fuel s := by
  induction fuel generalizing s with
  | zero => rfl
  | succ fuel ih =>
    rcases hsched.empty_or_first with hnone | ⟨loc, v, hmin, hv⟩
    · rw [loop_of_empty hnone, loop_of_empty hnone]
    · have hcongr : interpret { D with widen, subseteq } limits p loc v.state (s.popped loc v) =
          interpret D limits p loc v.state (s.popped loc v) :=
        (hs.popped hmin).interpret_congr widen subseteq hp hlen
      cases hrun : interpret D limits p loc v.state (s.popped loc v) with
      | ok _ t =>
        have hround : Round D limits p s loc v t := ⟨hmin, hv, hrun⟩
        rw [loop_of_ok hmin hv hrun, loop_of_ok hmin hv (hcongr.trans hrun)]
        exact ih (hround.scheduled hsched) (hround.sweeping hp hlen hs)
      | error e t => rw [loop_of_error hmin hv hrun, loop_of_error hmin hv (hcongr.trans hrun)]

end Unused

end Fixpoint

end CacheTiming
