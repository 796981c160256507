import CacheTiming.Fixpoint.Search
import CacheTiming.Proofs.Domain.Action

/-! What the parts of a search do where they succeed.

Every part is said once: which states it passes on, what it asks the domain for, and which search it
leaves. Statements about whole searches only use these. -/

namespace CacheTiming.Fixpoint

variable {μ σ α : Type} {D : Domain μ σ} {limits : Limits} {p : Program} {s s' : Search μ σ}
  {loc source : Location} {pc : UInt64} {st : σ}

/-! ### Operations of the domain -/

theorem attempt_of_ok {action : Action μ α} {a : α} {m : μ} (h : action s.memory = .ok a m) :
    attempt action s = .ok (.ok a) { s with memory := m } := by
  simp only [attempt, h]

theorem attempt_of_error {action : Action μ α} {e : Failure} {m : μ} (h : action s.memory = .error e m) :
    attempt action s = .ok (.error e) { s with memory := m } := by
  simp only [attempt, h]

theorem demand_of_ok {action : Action μ α} {a : α} {m : μ} (h : action s.memory = .ok a m) :
    demand action s = .ok a { s with memory := m } :=
  bind_eq_ok.mpr ⟨_, _, attempt_of_ok h, rfl⟩

theorem merge_of_ok {action : Action μ σ} {m : μ} (h : action s.memory = .ok st m) :
    merge loc action s = .ok st { s with memory := m } :=
  bind_eq_ok.mpr ⟨_, _, attempt_of_ok h, rfl⟩

theorem demand_eq_ok {action : Action μ α} {a : α} (h : demand action s = .ok a s') :
    ∃ m, action s.memory = .ok a m ∧ s' = { s with memory := m } := by
  obtain ⟨r, t, h₁, h₂⟩ := bind_eq_ok.mp h
  cases ha : action s.memory with
  | ok b m =>
    rw [attempt_of_ok ha] at h₁
    cases h₁
    cases h₂
    exact ⟨m, rfl, rfl⟩
  | error e m =>
    rw [attempt_of_error ha] at h₁
    cases h₁
    cases h₂

theorem merge_eq_ok {action : Action μ σ} (h : merge loc action s = .ok st s') :
    ∃ m, action s.memory = .ok st m ∧ s' = { s with memory := m } := by
  obtain ⟨r, t, h₁, h₂⟩ := bind_eq_ok.mp h
  cases ha : action s.memory with
  | ok b m =>
    rw [attempt_of_ok ha] at h₁
    cases h₁
    cases h₂
    exact ⟨m, rfl, rfl⟩
  | error e m =>
    rw [attempt_of_error ha] at h₁
    cases h₁
    obtain ⟨u, t, h₁, h₂⟩ := bind_eq_ok.mp h₂
    cases h₁
    split at h₂
    · obtain ⟨_, _, h₁, h₂⟩ := bind_eq_ok.mp h₂
      cases h₂
    · cases h₂

/-! ### Passing a state on -/

/-- The search that remembers whether a backward jump was met. -/
def Search.noting (s : Search μ σ) (back : Bool) : Search μ σ := { s with loops := s.loops || back }

@[simp] theorem Search.pending_noting (s : Search μ σ) (back : Bool) : (s.noting back).pending = s.pending := rfl

/-- The search in which a location has a new state, to be interpreted. -/
def Search.queue (s : Search μ σ) (memory : μ) (loc : Location) (v : Visit σ) : Search μ σ :=
  { s with memory, visits := s.visits.insert loc v, pending := s.pending.insert loc }

/-- What becomes of a state `st` that is passed on to a location. -/
inductive Arrival (D : Domain μ σ) (limits : Limits) (back : Bool) (loc : Location) (st : σ)
    (s s' : Search μ σ) : Prop where
  /-- It is the first one. -/
  | fresh (new : s.visits[loc]? = none) (eq : s' = s.queue s.memory loc { state := st })
  /-- It is joined to one that waits. -/
  | join {v : Visit σ} {r : σ} {m : μ} (known : s.visits[loc]? = some v)
      (waiting : v.done = false ∨ loc ∈ s.pending) (run : D.join v.state st s.memory = .ok r m)
      (eq : s' = s.queue m loc { v with state := r })
  /-- It was covered by the one that was interpreted last. -/
  | skip {v : Visit σ} {m : μ} (known : s.visits[loc]? = some v) (done : v.done = true) (idle : loc ∉ s.pending)
      (test : D.subseteq st v.state s.memory = .ok true m) (eq : s' = { s with memory := m })
  /-- It widens that one, at the target of a backward jump. -/
  | widen {v : Visit σ} {r : σ} {m m' : μ} (known : s.visits[loc]? = some v) (done : v.done = true)
      (idle : loc ∉ s.pending) (test : D.subseteq st v.state s.memory = .ok false m) (backward : back = true)
      (round : (v.rounds + 1).toInt ≤ limits.rounds) (run : D.widen v.state st m = .ok r m')
      (eq : s' = s.queue m' loc { v with state := r, rounds := v.rounds + 1 })
  /-- It takes the place of that one. -/
  | replace {v : Visit σ} {m : μ} (known : s.visits[loc]? = some v) (done : v.done = true) (idle : loc ∉ s.pending)
      (test : D.subseteq st v.state s.memory = .ok false m) (forward : back = false)
      (eq : s' = s.queue m loc { v with state := st })

theorem propagate_eq_ok (h : propagate D limits source pc st s = .ok () s') :
    Arrival D limits (source.goesBack pc) (source.next limits.unroll pc) st (s.noting (source.goesBack pc)) s' := by
  unfold propagate at h
  obtain ⟨_, _, h₁, h⟩ := bind_eq_ok.mp h
  cases h₁
  obtain ⟨_, _, h₁, h⟩ := bind_eq_ok.mp h
  cases h₁
  cases hv : s.visits[source.next limits.unroll pc]? with
  | none =>
    simp only [hv] at h
    cases h
    exact .fresh hv rfl
  | some v =>
    simp only [hv] at h
    obtain ⟨_, _, h₁, h⟩ := bind_eq_ok.mp h
    cases h₁
    split at h
    · rename_i hw
      obtain ⟨r, _, h₁, h⟩ := bind_eq_ok.mp h
      obtain ⟨m, hj, rfl⟩ := merge_eq_ok h₁
      cases h
      refine .join hv ?_ hj rfl
      simpa using hw
    · rename_i hw
      have hw : v.done = true ∧ source.next limits.unroll pc ∉ (s.noting (source.goesBack pc)).pending := by
        simpa using hw
      obtain ⟨covered, _, h₁, h⟩ := bind_eq_ok.mp h
      obtain ⟨m, ht, rfl⟩ := demand_eq_ok h₁
      cases covered with
      | true =>
        cases h
        exact .skip hv hw.1 hw.2 ht rfl
      | false =>
        split at h
        · cases ‹false = true›
        · split at h
          · split at h
            · obtain ⟨_, _, h₁, h⟩ := bind_eq_ok.mp h
              obtain ⟨_, _, h₁, h⟩ := bind_eq_ok.mp h
              cases h₁
            · rename_i hback hround
              obtain ⟨r, _, h₁, h⟩ := bind_eq_ok.mp h
              obtain ⟨m', hj, rfl⟩ := merge_eq_ok h₁
              cases h
              exact .widen hv hw.1 hw.2 ht hback (Int.not_lt.mp hround) hj rfl
          · rename_i hback
            cases h
            exact .replace hv hw.1 hw.2 ht (by simpa using hback) rfl

theorem propagate_of_arrival
    (h : Arrival D limits (source.goesBack pc) (source.next limits.unroll pc) st (s.noting (source.goesBack pc)) s') :
    propagate D limits source pc st s = .ok () s' := by
  unfold propagate
  refine bind_eq_ok.mpr ⟨_, _, rfl, bind_eq_ok.mpr ⟨_, _, rfl, ?_⟩⟩
  -- What follows looks at the state of the target, and then at whether it waits.
  cases h with
  | fresh new eq =>
    have new : s.visits[source.next limits.unroll pc]? = none := new
    simp only [new]
    subst eq
    rfl
  | @join v r m known waiting run eq =>
    have known : s.visits[source.next limits.unroll pc]? = some v := known
    simp only [known]
    refine bind_eq_ok.mpr ⟨_, _, rfl, ?_⟩
    rw [if_pos (by simpa using waiting)]
    subst eq
    exact bind_eq_ok.mpr ⟨_, _, merge_of_ok run, rfl⟩
  | @skip v m known done idle test eq =>
    have known : s.visits[source.next limits.unroll pc]? = some v := known
    simp only [known]
    refine bind_eq_ok.mpr ⟨_, _, rfl, ?_⟩
    have hidle : source.next limits.unroll pc ∉ s.pending := idle
    rw [if_neg (by simpa [done] using hidle)]
    subst eq
    exact bind_eq_ok.mpr ⟨_, _, demand_of_ok test, rfl⟩
  | @widen v r m m' known done idle test backward round run eq =>
    have known : s.visits[source.next limits.unroll pc]? = some v := known
    simp only [known]
    refine bind_eq_ok.mpr ⟨_, _, rfl, ?_⟩
    have hidle : source.next limits.unroll pc ∉ s.pending := idle
    rw [if_neg (by simpa [done] using hidle)]
    refine bind_eq_ok.mpr ⟨_, _, demand_of_ok test, ?_⟩
    rw [if_neg Bool.false_ne_true, if_pos backward, if_neg (Int.not_lt.mpr round)]
    subst eq
    exact bind_eq_ok.mpr ⟨_, _, merge_of_ok run, rfl⟩
  | @replace v m known done idle test forward eq =>
    have known : s.visits[source.next limits.unroll pc]? = some v := known
    simp only [known]
    refine bind_eq_ok.mpr ⟨_, _, rfl, ?_⟩
    have hidle : source.next limits.unroll pc ∉ s.pending := idle
    rw [if_neg (by simpa [done] using hidle)]
    refine bind_eq_ok.mpr ⟨_, _, demand_of_ok test, ?_⟩
    rw [if_neg Bool.false_ne_true, if_neg (by rw [forward]; exact Bool.false_ne_true)]
    subst eq
    rfl

theorem Arrival.unchanged {back : Bool} (h : Arrival D limits back loc st s s') :
    s'.loops = s.loops ∧ s'.final = s.final := by
  cases h with
  | fresh new eq => exact eq ▸ ⟨rfl, rfl⟩
  | join known waiting run eq => exact eq ▸ ⟨rfl, rfl⟩
  | skip known done idle test eq => exact eq ▸ ⟨rfl, rfl⟩
  | widen known done idle test backward round run eq => exact eq ▸ ⟨rfl, rfl⟩
  | replace known done idle test forward eq => exact eq ▸ ⟨rfl, rfl⟩

theorem propagate_fresh (new : s.visits[source.next limits.unroll pc]? = none) :
    propagate D limits source pc st s =
      .ok () ((s.noting (source.goesBack pc)).queue s.memory (source.next limits.unroll pc) { state := st }) :=
  propagate_of_arrival (.fresh new rfl)

/-! ### Interpreting an instruction -/

theorem conclude_eq_ok (h : conclude D loc st s = .ok () s') :
    s.final = none ∧ s' = { s with final := some st } ∨
      ∃ f r m, s.final = some f ∧ D.join f st s.memory = .ok r m ∧
        s' = { s with memory := m, final := some r } := by
  unfold conclude at h
  obtain ⟨_, _, h₁, h⟩ := bind_eq_ok.mp h
  cases h₁
  cases hf : s.final with
  | none =>
    simp only [hf] at h
    cases h
    exact Or.inl ⟨rfl, rfl⟩
  | some f =>
    simp only [hf] at h
    obtain ⟨r, _, h₁, h⟩ := bind_eq_ok.mp h
    obtain ⟨m, hj, rfl⟩ := merge_eq_ok h₁
    cases h
    exact Or.inr ⟨f, r, m, rfl, hj, rfl⟩

theorem conclude_of_none (h : s.final = none) : conclude D loc st s = .ok () { s with final := some st } := by
  refine bind_eq_ok.mpr ⟨_, _, rfl, ?_⟩
  simp only [h]
  rfl

theorem conclude_of_final {f r : σ} {m : μ} (h : s.final = some f) (hj : D.join f st s.memory = .ok r m) :
    conclude D loc st s = .ok () { s with memory := m, final := some r } := by
  refine bind_eq_ok.mpr ⟨_, _, rfl, ?_⟩
  simp only [h]
  exact bind_eq_ok.mpr ⟨_, _, merge_of_ok hj, rfl⟩

/-- The search that has logged a step. -/
def Search.logging (s : Search μ σ) (e : Event) : Search μ σ := { s with log := s.log.push e }

/-- What interpreting the instruction at a location does, where it succeeds. -/
inductive Interpretation (D : Domain μ σ) (limits : Limits) (p : Program) (loc : Location) (st : σ)
    (s s' : Search μ σ) : Prop where
  | halt (op : p.opAt loc.pc = .halt) (run : conclude D loc st s = .ok () s')
  | touch {r : σ} {m : μ} (op : p.opAt loc.pc = .touch) (access : D.touch st (p.fetch loc.pc).arg s.memory = .ok r m)
      (run : propagate D limits loc (loc.pc + 1) r { s with memory := m } = .ok () s')
  /-- The access is impossible, so the path ends. -/
  | bottom {m : μ} (op : p.opAt loc.pc = .touch)
      (access : D.touch st (p.fetch loc.pc).arg s.memory = .error .bottom m) (eq : s' = { s with memory := m })
  | elapse {r : σ} {m : μ} (op : p.opAt loc.pc = .elapse)
      (pause : D.elapse st (p.fetch loc.pc).arg s.memory = .ok r m)
      (run : propagate D limits loc (loc.pc + 1) r { s with memory := m } = .ok () s')
  | branch {t : Search μ σ} (op : p.opAt loc.pc = .branch)
      (pass : propagate D limits loc (loc.pc + 1) st s = .ok () t)
      (take : propagate D limits loc (p.fetch loc.pc).arg st t = .ok () s')
  | jump (op : p.opAt loc.pc = .jump) (run : propagate D limits loc (p.fetch loc.pc).arg st s = .ok () s')

theorem interpret_eq_ok (h : interpret D limits p loc st s = .ok () s') :
    Interpretation D limits p loc st (s.logging (.step loc (p.opAt loc.pc))) s' := by
  unfold interpret at h
  obtain ⟨_, _, h₁, h⟩ := bind_eq_ok.mp h
  cases h₁
  cases hop : (p.fetch loc.pc).op with
  | «undefined» =>
    simp only [hop] at h
    cases h
  | halt =>
    simp only [hop] at h
    exact .halt hop (by rw [Program.opAt, hop]; exact h)
  | branch =>
    simp only [hop] at h
    obtain ⟨_, t, h₁, h₂⟩ := bind_eq_ok.mp h
    exact .branch hop (by rw [Program.opAt, hop]; exact h₁) h₂
  | jump =>
    simp only [hop] at h
    exact .jump hop (by rw [Program.opAt, hop]; exact h)
  | elapse =>
    simp only [hop] at h
    obtain ⟨r, t, h₁, h₂⟩ := bind_eq_ok.mp h
    obtain ⟨m, hr, rfl⟩ := demand_eq_ok h₁
    exact .elapse hop hr (by rw [Program.opAt, hop]; exact h₂)
  | touch =>
    simp only [hop] at h
    obtain ⟨r, t, h₁, h₂⟩ := bind_eq_ok.mp h
    have h₁ : attempt _ (s.logging (.step loc .touch)) = .ok r t := h₁
    cases ha : D.touch st (p.fetch loc.pc).arg (s.logging (.step loc .touch)).memory with
    | ok r' m =>
      rw [attempt_of_ok ha] at h₁
      cases h₁
      exact .touch hop ha (by rw [Program.opAt, hop]; exact h₂)
    | error e m =>
      rw [attempt_of_error ha] at h₁
      cases h₁
      cases e with
      | bottom =>
        cases h₂
        exact .bottom hop ha (by rw [Program.opAt, hop])
      | trace => cases h₂
      | fault => cases h₂

theorem interpret_touch (hop : p.opAt loc.pc = .touch) {st' : σ} {m : μ}
    (ht : D.touch st (p.fetch loc.pc).arg s.memory = .ok st' m)
    (hp : propagate D limits loc (loc.pc + 1) st' { s.logging (.step loc .touch) with memory := m } = .ok () s') :
    interpret D limits p loc st s = .ok () s' := by
  have hop : (p.fetch loc.pc).op = .touch := hop
  refine bind_eq_ok.mpr ⟨_, _, rfl, ?_⟩
  simp only [hop]
  exact bind_eq_ok.mpr ⟨.ok st', _, attempt_of_ok ht, hp⟩

theorem interpret_elapse (hop : p.opAt loc.pc = .elapse) {st' : σ} {m : μ}
    (ht : D.elapse st (p.fetch loc.pc).arg s.memory = .ok st' m)
    (hp : propagate D limits loc (loc.pc + 1) st' { s.logging (.step loc .elapse) with memory := m } = .ok () s') :
    interpret D limits p loc st s = .ok () s' := by
  have hop : (p.fetch loc.pc).op = .elapse := hop
  refine bind_eq_ok.mpr ⟨_, _, rfl, ?_⟩
  simp only [hop]
  exact bind_eq_ok.mpr ⟨st', _, bind_eq_ok.mpr ⟨.ok st', _, attempt_of_ok ht, rfl⟩, hp⟩

theorem interpret_jump (hop : p.opAt loc.pc = .jump)
    (hp : propagate D limits loc (p.fetch loc.pc).arg st (s.logging (.step loc .jump)) = .ok () s') :
    interpret D limits p loc st s = .ok () s' := by
  have hop : (p.fetch loc.pc).op = .jump := hop
  refine bind_eq_ok.mpr ⟨_, _, rfl, ?_⟩
  simp only [hop]
  exact hp

theorem interpret_branch (hop : p.opAt loc.pc = .branch) {t : Search μ σ}
    (hp : propagate D limits loc (loc.pc + 1) st (s.logging (.step loc .branch)) = .ok () t)
    (ht : propagate D limits loc (p.fetch loc.pc).arg st t = .ok () s') : interpret D limits p loc st s = .ok () s' := by
  have hop : (p.fetch loc.pc).op = .branch := hop
  refine bind_eq_ok.mpr ⟨_, _, rfl, ?_⟩
  simp only [hop]
  exact bind_eq_ok.mpr ⟨_, _, hp, ht⟩

theorem interpret_conclude (hop : p.opAt loc.pc = .halt)
    (hc : conclude D loc st (s.logging (.step loc .halt)) = .ok () s') : interpret D limits p loc st s = .ok () s' := by
  have hop : (p.fetch loc.pc).op = .halt := hop
  refine bind_eq_ok.mpr ⟨_, _, rfl, ?_⟩
  simp only [hop]
  exact hc

theorem interpret_undefined {code : UInt8} {above : 4 < code} (hop : p.opAt loc.pc = .undefined code above) :
    interpret D limits p loc st s =
      .error (.gaveUp .invalidOpcode) (s.logging (.step loc (.undefined code above))) := by
  have hop : (p.fetch loc.pc).op = .undefined code above := hop
  refine bind_eq_error.mpr (Or.inr ⟨_, _, rfl, ?_⟩)
  simp only [hop]
  rfl

theorem interpret_bottom (hop : p.opAt loc.pc = .touch) {m : μ}
    (ht : D.touch st (p.fetch loc.pc).arg s.memory = .error .bottom m) :
    interpret D limits p loc st s = .ok () { s.logging (.step loc .touch) with memory := m } := by
  have hop : (p.fetch loc.pc).op = .touch := hop
  refine bind_eq_ok.mpr ⟨_, _, rfl, ?_⟩
  simp only [hop]
  exact bind_eq_ok.mpr ⟨_, _, attempt_of_error ht, rfl⟩

theorem interpret_touch_error (hop : p.opAt loc.pc = .touch) {m : μ} {e : Failure} (he : e ≠ .bottom)
    (ht : D.touch st (p.fetch loc.pc).arg s.memory = .error e m) :
    interpret D limits p loc st s = .error (.aborted e) { s.logging (.step loc .touch) with memory := m } := by
  have hop : (p.fetch loc.pc).op = .touch := hop
  refine bind_eq_error.mpr (Or.inr ⟨_, _, rfl, ?_⟩)
  simp only [hop]
  refine bind_eq_error.mpr (Or.inr ⟨_, _, attempt_of_error ht, ?_⟩)
  cases e with
  | bottom => exact absurd rfl he
  | trace => rfl
  | fault => rfl

theorem interpret_elapse_error (hop : p.opAt loc.pc = .elapse) {m : μ} {e : Failure}
    (ht : D.elapse st (p.fetch loc.pc).arg s.memory = .error e m) :
    interpret D limits p loc st s = .error (.aborted e) { s.logging (.step loc .elapse) with memory := m } := by
  have hop : (p.fetch loc.pc).op = .elapse := hop
  refine bind_eq_error.mpr (Or.inr ⟨_, _, rfl, ?_⟩)
  simp only [hop]
  exact bind_eq_error.mpr (Or.inl (bind_eq_error.mpr (Or.inr ⟨_, _, attempt_of_error ht, rfl⟩)))

/-! ### Taking the next location, and the end -/

/-- The search in which the first location was taken to be interpreted. -/
def Search.popped (s : Search μ σ) (loc : Location) (v : Visit σ) : Search μ σ :=
  { s with pending := s.pending.erase loc, visits := s.visits.insert loc { v with done := true } }

theorem pop_eq_some (h : pop s = .ok (some (loc, st)) s') :
    ∃ v, s.pending.min? = some loc ∧ s.visits[loc]? = some v ∧ st = v.state ∧ s' = s.popped loc v := by
  unfold pop at h
  obtain ⟨_, _, h₁, h⟩ := bind_eq_ok.mp h
  cases h₁
  cases hm : s.pending.min? with
  | none =>
    simp only [hm] at h
    cases h
  | some l =>
    simp only [hm] at h
    cases hv : s.visits[l]? with
    | none =>
      simp only [hv] at h
      cases h
    | some v =>
      simp only [hv] at h
      obtain ⟨_, _, h₁, h⟩ := bind_eq_ok.mp h
      cases h₁
      cases h
      exact ⟨v, rfl, hv, rfl, rfl⟩

theorem pop_of_min {v : Visit σ} (hm : s.pending.min? = some loc) (hv : s.visits[loc]? = some v) :
    pop s = .ok (some (loc, v.state)) (s.popped loc v) := by
  unfold pop
  refine bind_eq_ok.mpr ⟨_, _, rfl, ?_⟩
  simp only [hm, hv]
  rfl

theorem pop_of_not_mem (h : ∀ loc, loc ∉ s.pending) : pop s = .ok none s := by
  have hmin : s.pending.min? = none := by
    rw [Std.ExtTreeSet.min?_eq_none_iff, Std.ExtTreeSet.eq_empty_iff_forall_not_mem]
    exact h
  refine bind_eq_ok.mpr ⟨_, _, rfl, ?_⟩
  simp only [hmin]
  rfl

theorem pop_eq_none (h : pop s = .ok none s') :
    s' = s ∧ (s.pending.min? = none ∨ ∃ l, s.pending.min? = some l ∧ s.visits[l]? = none) := by
  unfold pop at h
  obtain ⟨_, _, h₁, h⟩ := bind_eq_ok.mp h
  cases h₁
  cases hm : s.pending.min? with
  | none =>
    simp only [hm] at h
    cases h
    exact ⟨rfl, Or.inl rfl⟩
  | some l =>
    simp only [hm] at h
    cases hv : s.visits[l]? with
    | none =>
      simp only [hv] at h
      cases h
      exact ⟨rfl, Or.inr ⟨l, rfl, hv⟩⟩
    | some v =>
      simp only [hv] at h
      obtain ⟨_, _, h₁, h⟩ := bind_eq_ok.mp h
      cases h₁
      cases h

theorem finish_eq_ok {f : σ} (h : finish s = .ok f s') : s.final = some f ∧ s'.memory = s.memory := by
  unfold finish at h
  obtain ⟨_, _, h₁, h⟩ := bind_eq_ok.mp h
  cases h₁
  cases hf : s.final with
  | none =>
    simp only [hf] at h
    cases h
  | some f' =>
    simp only [hf] at h
    obtain ⟨_, _, h₁, h⟩ := bind_eq_ok.mp h
    cases h₁
    obtain ⟨_, _, h₁, h⟩ := bind_eq_ok.mp h
    cases h₁
    cases h
    exact ⟨rfl, rfl⟩

theorem finish_of_final (h : s.final = some st) : ∃ e, finish s = .ok st e ∧ e.memory = s.memory := by
  refine ⟨s.logging (.stable s.visits.size), ?_, rfl⟩
  refine bind_eq_ok.mpr ⟨_, _, rfl, ?_⟩
  simp only [h]
  rfl

theorem finish_of_none (h : s.final = none) : finish s = .error (.gaveUp .noFeasiblePath) s := by
  refine bind_eq_error.mpr (Or.inr ⟨_, _, rfl, ?_⟩)
  simp only [h]
  rfl

end CacheTiming.Fixpoint
