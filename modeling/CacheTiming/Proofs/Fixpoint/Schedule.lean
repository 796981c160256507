import CacheTiming.Proofs.Fixpoint.Coverage
import Mathlib.Tactic.ByContra

/-! The order in which a search interprets locations.

A round takes the first location that waits, and passes states on from there. All but one kind of step
lead to a later location: only a backward jump at the limit of the depth goes back, and what it finds
there it joins, skips or widens, but never replaces. Statements about the length and the extent of a
search rest on these two facts. -/

namespace CacheTiming

namespace Location

variable {a b c : Location} {unroll : Int} {pc : UInt64}

theorem before_iff : a.before b = true ↔ a.depth < b.depth ∨ a.depth = b.depth ∧ a.pc.toNat < b.pc.toNat := by
  have h : compare a b = (compare a.depth b.depth).then (compare a.pc b.pc) := rfl
  rw [before, decide_eq_true_iff, h, Ordering.then_eq_lt, Std.compare_eq_lt, Std.compare_eq_lt,
    Std.compare_eq_iff_eq, UInt64.lt_iff_toNat_lt]

theorem isLE_iff : (compare a b).isLE = true ↔ ¬ b.before a = true := by
  rw [before, decide_eq_true_iff, ← Std.OrientedCmp.gt_iff_lt, Ordering.isLE_iff_ne_gt]

theorem before_irrefl (a : Location) : ¬ a.before a = true := by
  rw [before_iff]
  omega

theorem before_trans (hab : a.before b = true) (hbc : b.before c = true) : a.before c = true := by
  rw [before_iff] at *
  omega

theorem eq_of_not_before (hab : ¬ a.before b = true) (hba : ¬ b.before a = true) : a = b := by
  rw [before_iff] at hab hba
  have hdepth : a.depth = b.depth := by omega
  have hpc : a.pc = b.pc := UInt64.toNat_inj.mp (by omega)
  cases a
  cases b
  simp_all

theorem before_of_ne_of_not_before (hne : a ≠ b) (hba : ¬ b.before a = true) : a.before b = true := by
  by_contra hab
  exact hne (eq_of_not_before hab hba)

/-- Only a backward jump at the limit of the depth leads to a location that is not a later one. -/
theorem next_of_not_before (h : ¬ a.before (a.next unroll pc) = true) :
    a.goesBack pc = true ∧ unroll ≤ a.depth ∧ a.next unroll pc = { pc, depth := a.depth } := by
  have hback : a.goesBack pc = true := by
    by_contra hback
    refine h (before_iff.mpr (Or.inr ?_))
    simp only [goesBack, decide_eq_true_eq, UInt64.le_iff_toNat_le] at hback
    simp only [next, goesBack, Bool.and_eq_true, decide_eq_true_eq, UInt64.le_iff_toNat_le]
    rw [if_neg (by omega)]
    omega
  have hdepth : unroll ≤ a.depth := by
    by_contra hdepth
    refine h (before_iff.mpr (Or.inl ?_))
    simp only [next, hback, Bool.true_and, decide_eq_true_eq]
    rw [if_pos (by omega)]
    omega
  refine ⟨hback, hdepth, ?_⟩
  simp only [next, hback, Bool.true_and, decide_eq_true_eq]
  rw [if_neg (by omega)]

end Location

namespace Fixpoint

variable {μ σ : Type} {D : Domain μ σ} {limits : Limits} {p : Program} {s s' t : Search μ σ}
  {loc l : Location} {pc : UInt64} {st st' : σ} {v : Visit σ}

/-! ### What an instruction passes on -/

/-- The places at which a state goes on after the instruction at `pc`, and what it has become there. -/
inductive Passes (D : Domain μ σ) (p : Program) (pc : UInt64) (st : σ) : UInt64 → σ → Prop where
  | touch {r : σ} {m m' : μ} (op : p.opAt pc = .touch) (access : D.touch st (p.fetch pc).arg m = .ok r m') :
      Passes D p pc st (pc + 1) r
  | elapse {r : σ} {m m' : μ} (op : p.opAt pc = .elapse) (pause : D.elapse st (p.fetch pc).arg m = .ok r m') :
      Passes D p pc st (pc + 1) r
  | pass (op : p.opAt pc = .branch) : Passes D p pc st (pc + 1) st
  | take (op : p.opAt pc = .branch) : Passes D p pc st (p.fetch pc).arg st
  | jump (op : p.opAt pc = .jump) : Passes D p pc st (p.fetch pc).arg st

theorem Passes.flows {pc' : UInt64} (h : Passes D p pc st pc' st') : p.Flows pc pc' := by
  cases h with
  | touch op => exact .next (Or.inl op)
  | elapse op => exact .next (Or.inr (Or.inl op))
  | pass op => exact .next (Or.inr (Or.inr op))
  | take op => exact .target (Or.inl op)
  | jump op => exact .target (Or.inr op)

/-- Two searches that hold the same states, all of which wait or do not wait in both. -/
structure Search.Level (s s' : Search μ σ) : Prop where
  visits : s'.visits = s.visits
  pending : s'.pending = s.pending

/-- Interpreting an instruction is a chain of arrivals, with nothing between them that touches the states
    of locations. So what is transitive and holds of these parts holds of the whole. -/
theorem interpret_induction {Q : Search μ σ → Search μ σ → Prop} (trans : ∀ {s t u}, Q s t → Q t u → Q s u)
    (level : ∀ {s t : Search μ σ}, s.Level t → Q s t)
    (arrival : ∀ {s t pc st'}, Passes D p loc.pc st pc st' →
      Arrival D limits (loc.goesBack pc) (loc.next limits.unroll pc) st' s t → Q s t)
    (h : interpret D limits p loc st s = .ok () s') : Q s s' := by
  have passed : ∀ {s t u : Search μ σ} {pc : UInt64} {st' : σ}, Passes D p loc.pc st pc st' →
      propagate D limits loc pc st' t = .ok () u → s.Level t → Q s u := by
    intro s t u pc st' hpass hrun hlevel
    have hnoting : s.Level (t.noting (loc.goesBack pc)) := ⟨hlevel.visits, hlevel.pending⟩
    exact trans (level hnoting) (arrival hpass (propagate_eq_ok hrun))
  cases interpret_eq_ok h with
  | halt op run =>
    rcases conclude_eq_ok run with ⟨-, rfl⟩ | ⟨f, r, m, -, -, rfl⟩
    · exact level ⟨rfl, rfl⟩
    · exact level ⟨rfl, rfl⟩
  | touch op access run => exact passed (.touch op access) run ⟨rfl, rfl⟩
  | bottom op access eq =>
    subst eq
    exact level ⟨rfl, rfl⟩
  | elapse op pause run => exact passed (.elapse op pause) run ⟨rfl, rfl⟩
  | branch op pass take => exact trans (passed (.pass op) pass ⟨rfl, rfl⟩) (passed (.take op) take ⟨rfl, rfl⟩)
  | jump op run => exact passed (.jump op) run ⟨rfl, rfl⟩

/-- An arrival concerns its own location only. -/
theorem Arrival.frame {back : Bool} (h : Arrival D limits back loc st s s') (hne : l ≠ loc) :
    s'.visits[l]? = s.visits[l]? ∧ (l ∈ s'.pending ↔ l ∈ s.pending) := by
  have queued : ∀ {m : μ} {v : Visit σ}, (s.queue m loc v).visits[l]? = s.visits[l]? ∧
      (l ∈ (s.queue m loc v).pending ↔ l ∈ s.pending) := by
    intro m v
    rw [visits_queue, if_neg hne, mem_queue]
    exact ⟨rfl, fun hl => hl.resolve_left hne, Or.inr⟩
  cases h with
  | fresh new eq => exact eq ▸ queued
  | join known waiting run eq => exact eq ▸ queued
  | skip known done idle test eq =>
    subst eq
    exact ⟨rfl, Iff.rfl⟩
  | widen known done idle test backward round run eq => exact eq ▸ queued
  | replace known done idle test forward eq => exact eq ▸ queued

/-! ### What waits -/

/-- Every location that waits has a state, and every one that was not interpreted yet waits. -/
structure Search.Scheduled (s : Search μ σ) : Prop where
  known : ∀ {loc : Location}, loc ∈ s.pending → ∃ v, s.visits[loc]? = some v
  waits : ∀ {loc : Location} {v : Visit σ}, s.visits[loc]? = some v → v.done = false → loc ∈ s.pending

theorem scheduled_start (D : Domain μ σ) (m : μ) : (Search.start D m).Scheduled where
  known h := ⟨_, by rw [visits_start, if_pos (mem_start.mp h)]⟩
  waits {loc v} h _ := by
    rw [visits_start] at h
    split at h
    · rename_i heq
      exact mem_start.mpr heq
    · cases h

theorem Search.Scheduled.queue (h : s.Scheduled) {m : μ} : (s.queue m loc v).Scheduled where
  known {l} hl := by
    rw [visits_queue]
    split
    · exact ⟨v, rfl⟩
    · rename_i hne
      exact h.known ((mem_queue.mp hl).resolve_left hne)
  waits {l w} hw hd := by
    rw [visits_queue] at hw
    split at hw
    · rename_i heq
      exact mem_queue.mpr (Or.inl heq)
    · exact mem_queue.mpr (Or.inr (h.waits hw hd))

theorem Search.Scheduled.popped (h : s.Scheduled) : (s.popped loc v).Scheduled where
  known {l} hl := by
    obtain ⟨hne, hl⟩ := mem_popped.mp hl
    rw [visits_popped, if_neg hne]
    exact h.known hl
  waits {l w} hw hd := by
    rw [visits_popped] at hw
    split at hw
    · cases hw
      cases hd
    · rename_i hne
      exact mem_popped.mpr ⟨hne, h.waits hw hd⟩

theorem Arrival.scheduled {back : Bool} (h : Arrival D limits back loc st s s') (hs : s.Scheduled) : s'.Scheduled := by
  cases h with
  | fresh new eq =>
    subst eq
    exact hs.queue
  | join known waiting run eq =>
    subst eq
    exact hs.queue
  | skip known done idle test eq =>
    subst eq
    exact ⟨hs.known, hs.waits⟩
  | widen known done idle test backward round run eq =>
    subst eq
    exact hs.queue
  | replace known done idle test forward eq =>
    subst eq
    exact hs.queue

theorem Search.Level.scheduled (h : s.Level s') (hs : s.Scheduled) : s'.Scheduled where
  known {l} hl := by
    rw [h.visits]
    exact hs.known (h.pending ▸ hl)
  waits {l w} hw hd := by
    rw [h.pending]
    exact hs.waits (h.visits ▸ hw) hd

theorem Search.Scheduled.interpret (hs : s.Scheduled) (h : Fixpoint.interpret D limits p loc st s = .ok () s') :
    s'.Scheduled := by
  refine interpret_induction (Q := fun s s' => s.Scheduled → s'.Scheduled) ?_ ?_ ?_ h hs
  · exact fun hst htu hs => htu (hst hs)
  · exact fun hlevel => hlevel.scheduled
  · exact fun _ harrival => harrival.scheduled

/-! ### Where states are -/

/-- All states are at locations with a property. -/
def Search.Within (P : Location → Prop) (s : Search μ σ) : Prop := ∀ loc v, s.visits[loc]? = some v → P loc

section Within
variable {P : Location → Prop}

theorem within_start (D : Domain μ σ) (m : μ) (h : P .start) : (Search.start D m).Within P := by
  intro loc v hv
  rw [visits_start] at hv
  split at hv
  · rename_i heq
    exact heq ▸ h
  · cases hv

theorem Search.Within.queue (hs : s.Within P) {m : μ} (hloc : P loc) : (s.queue m loc v).Within P := by
  intro l w hw
  rw [visits_queue] at hw
  split at hw
  · rename_i heq
    exact heq ▸ hloc
  · exact hs l w hw

theorem Search.Within.popped (hs : s.Within P) (hv : s.visits[loc]? = some v) : (s.popped loc v).Within P := by
  intro l w hw
  rw [visits_popped] at hw
  split at hw
  · rename_i heq
    exact heq ▸ hs loc v hv
  · exact hs l w hw

theorem Arrival.within {back : Bool} (h : Arrival D limits back loc st s s') (hs : s.Within P) (hloc : P loc) :
    s'.Within P := by
  cases h with
  | fresh new eq => exact eq ▸ hs.queue hloc
  | join known waiting run eq => exact eq ▸ hs.queue hloc
  | skip known done idle test eq =>
    subst eq
    exact hs
  | widen known done idle test backward round run eq => exact eq ▸ hs.queue hloc
  | replace known done idle test forward eq => exact eq ▸ hs.queue hloc

theorem Search.Within.interpret (hs : s.Within P) (hnext : ∀ {pc}, p.Flows loc.pc pc → P (loc.next limits.unroll pc))
    (h : Fixpoint.interpret D limits p loc st s = .ok () s') : s'.Within P := by
  refine interpret_induction (Q := fun s s' => s.Within P → s'.Within P) ?_ ?_ ?_ h hs
  · exact fun hst htu hs => htu (hst hs)
  · intro s t hlevel hs l w hw
    exact hs l w (hlevel.visits ▸ hw)
  · exact fun hpass harrival hs => harrival.within hs (hnext hpass.flows)

end Within

/-! ### Rounds -/

/-- A round of a search: the first location that waits is taken, and its state is interpreted. -/
structure Round (D : Domain μ σ) (limits : Limits) (p : Program) (s : Search μ σ) (loc : Location) (v : Visit σ)
    (s' : Search μ σ) : Prop where
  first : s.pending.min? = some loc
  known : s.visits[loc]? = some v
  run : interpret D limits p loc v.state (s.popped loc v) = .ok () s'

/-- Rounds that follow each other, with the locations that they take. -/
inductive Rounds (D : Domain μ σ) (limits : Limits) (p : Program) : Search μ σ → List Location → Search μ σ → Prop where
  | nil {s : Search μ σ} : Rounds D limits p s [] s
  | cons {s t u : Search μ σ} {loc : Location} {v : Visit σ} {locs : List Location} (round : Round D limits p s loc v t)
      (rest : Rounds D limits p t locs u) : Rounds D limits p s (loc :: locs) u

theorem mem_of_min (h : s.pending.min? = some loc) : loc ∈ s.pending := Std.ExtTreeSet.min?_mem h

theorem not_before_of_min (h : s.pending.min? = some loc) (hl : l ∈ s.pending) : ¬ l.before loc = true :=
  Location.isLE_iff.mp ((Std.ExtTreeSet.min?_eq_some_iff_mem_and_forall.mp h).2 l hl)

/-- What waits beside the location that a round takes are later locations. -/
theorem before_of_mem_popped (h : s.pending.min? = some loc) (hl : l ∈ (s.popped loc v).pending) :
    loc.before l = true := by
  obtain ⟨hne, hl⟩ := mem_popped.mp hl
  exact Location.before_of_ne_of_not_before (Ne.symm hne) (not_before_of_min h hl)

theorem Round.scheduled (h : Round D limits p s loc v s') (hs : s.Scheduled) : s'.Scheduled :=
  hs.popped.interpret h.run

theorem Round.within {P : Location → Prop} (h : Round D limits p s loc v s') (hs : s.Within P)
    (hnext : ∀ {pc}, P loc → p.Flows loc.pc pc → P (loc.next limits.unroll pc)) : s'.Within P :=
  (hs.popped h.known).interpret (hnext (hs loc v h.known)) h.run

theorem loop_of_empty (h : ∀ l, l ∉ s.pending) (fuel : Nat) : loop D limits p (fuel + 1) s = finish s := by
  show EStateM.bind pop _ s = _
  simp only [EStateM.bind, pop_of_not_mem h]

theorem loop_of_first (hmin : s.pending.min? = some loc) (hv : s.visits[loc]? = some v) (fuel : Nat) :
    loop D limits p (fuel + 1) s =
      EStateM.bind (interpret D limits p loc v.state) (fun _ => loop D limits p fuel) (s.popped loc v) := by
  show EStateM.bind pop _ s = _
  simp only [EStateM.bind, pop_of_min hmin hv]
  rfl

theorem loop_of_ok (hmin : s.pending.min? = some loc) (hv : s.visits[loc]? = some v)
    (hrun : interpret D limits p loc v.state (s.popped loc v) = .ok () t) (fuel : Nat) :
    loop D limits p (fuel + 1) s = loop D limits p fuel t := by
  rw [loop_of_first hmin hv]
  simp only [EStateM.bind, hrun]

theorem loop_of_error {e : Stop} (hmin : s.pending.min? = some loc) (hv : s.visits[loc]? = some v)
    (hrun : interpret D limits p loc v.state (s.popped loc v) = .error e t) (fuel : Nat) :
    loop D limits p (fuel + 1) s = .error e t := by
  rw [loop_of_first hmin hv]
  simp only [EStateM.bind, hrun]

theorem Search.Scheduled.empty_or_first (hs : s.Scheduled) :
    (∀ l, l ∉ s.pending) ∨ ∃ loc v, s.pending.min? = some loc ∧ s.visits[loc]? = some v := by
  cases hmin : s.pending.min? with
  | none =>
    rw [Std.ExtTreeSet.min?_eq_none_iff, Std.ExtTreeSet.eq_empty_iff_forall_not_mem] at hmin
    exact Or.inl hmin
  | some loc =>
    obtain ⟨v, hv⟩ := hs.known (mem_of_min hmin)
    exact Or.inr ⟨loc, v, rfl, hv⟩

/-- How a search goes on: it ends, or it makes a round, or it stops in the middle of one. -/
theorem loop_cases (D : Domain μ σ) (limits : Limits) (p : Program) (hs : s.Scheduled) :
    ((∀ l, l ∉ s.pending) ∧ ∀ fuel, loop D limits p (fuel + 1) s = finish s) ∨
      (∃ loc v t, Round D limits p s loc v t ∧ ∀ fuel, loop D limits p (fuel + 1) s = loop D limits p fuel t) ∨
        ∃ loc v e t, s.visits[loc]? = some v ∧ interpret D limits p loc v.state (s.popped loc v) = .error e t ∧
          ∀ fuel, loop D limits p (fuel + 1) s = .error e t := by
  rcases hs.empty_or_first with hnone | ⟨loc, v, hmin, hv⟩
  · exact Or.inl ⟨hnone, loop_of_empty hnone⟩
  · cases hrun : interpret D limits p loc v.state (s.popped loc v) with
    | ok _ t => exact Or.inr (Or.inl ⟨loc, v, t, ⟨hmin, hv, hrun⟩, loop_of_ok hmin hv hrun⟩)
    | error e t => exact Or.inr (Or.inr ⟨loc, v, e, t, hv, hrun, loop_of_error hmin hv hrun⟩)

/-- A search makes rounds until it runs out of fuel, until nothing waits any more, or until it stops in the
    middle of a round. -/
theorem exists_rounds (D : Domain μ σ) (limits : Limits) (p : Program) (fuel : Nat) (hs : s.Scheduled) :
    ∃ locs t, Rounds D limits p s locs t ∧
      (loop D limits p fuel s = .error .exhausted t ∨
        (∀ l, l ∉ t.pending) ∧ loop D limits p fuel s = finish t ∨
          ∃ loc v e u, t.visits[loc]? = some v ∧ interpret D limits p loc v.state (t.popped loc v) = .error e u ∧
            loop D limits p fuel s = .error e u) := by
  induction fuel generalizing s with
  | zero => exact ⟨[], s, .nil, Or.inl rfl⟩
  | succ fuel ih =>
    rcases loop_cases D limits p hs with ⟨hnone, hloop⟩ | ⟨loc, v, t, round, hloop⟩ | ⟨loc, v, e, u, hv, hrun, hloop⟩
    · exact ⟨[], s, .nil, Or.inr (Or.inl ⟨hnone, hloop fuel⟩)⟩
    · obtain ⟨locs, u, hrounds, hend⟩ := ih (round.scheduled hs)
      exact ⟨loc :: locs, u, .cons round hrounds, hloop fuel ▸ hend⟩
    · exact ⟨[], s, .nil, Or.inr (Or.inr ⟨loc, v, e, u, hv, hrun, hloop fuel⟩)⟩

end Fixpoint

variable {μ σ : Type}

/-- The analysis in which a search has ended with a result. -/
def Analysis.ofResult : EStateM.Result Fixpoint.Stop (Fixpoint.Search μ σ) σ → Analysis μ σ
  | .ok final s => { verdict := .converged final, memory := s.memory, log := s.log }
  | .error (.gaveUp cause) s => { verdict := .gaveUp cause, memory := s.memory, log := s.log }
  | .error (.aborted cause) s => { verdict := .aborted cause, memory := s.memory, log := s.log }
  | .error .exhausted s => { verdict := .gaveUp .internalFailure, memory := s.memory, log := s.log }

theorem analyze_eq_ofResult (D : Domain μ σ) (limits : Limits) (p : Program) (m : μ) :
    analyze D limits p m = .ofResult (Fixpoint.loop D limits p (Fixpoint.bound p limits) (.start D m)) := by
  unfold analyze Analysis.ofResult
  split <;> simp_all

theorem Analysis.ofResult_ne_noFixpoint {r : EStateM.Result Fixpoint.Stop (Fixpoint.Search μ σ) σ}
    (h : ∀ s, r ≠ .error (.gaveUp .noFixpoint) s) : (ofResult r).verdict ≠ .gaveUp .noFixpoint := by
  rcases r with ⟨final, s⟩ | ⟨e, s⟩
  · simp [ofResult]
  · cases e with
    | gaveUp cause =>
      intro hcause
      cases hcause
      exact h s rfl
    | aborted cause => simp [ofResult]
    | exhausted => simp [ofResult]

end CacheTiming
