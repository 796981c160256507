import CacheTiming.Proofs.Fixpoint.Steps
import CacheTiming.Proofs.Machine.Execution

/-! A search covers every execution.

At the limit of the depth a location that is reached again takes the new state, so the states that a
search holds at one moment do not cover all machines that come by. What does is the collection of all
states that were ever interpreted (`seen`): whatever a machine does after it was covered by one of them
is covered by another one, or by a state that waits to be interpreted. When no state waits any more,
the interpreted states cover all executions, and the final state covers those that have halted.

How states are read may depend on the memory of the domain, which grows during the search. All states
are read with the memory at its end. -/

namespace CacheTiming

variable {μ σ : Type}

/-- How the states of a domain are read. -/
structure Reading (μ σ : Type) where
  /-- What the memory satisfies throughout. -/
  Sane : μ → Prop
  /-- Whether the second memory can be what has become of the first. -/
  Later : μ → μ → Prop
  /-- What a state satisfies beside a memory. -/
  Fits : μ → σ → Prop
  /-- Whether a state covers a machine, read with a memory. -/
  Covers : μ → σ → Machine → Prop

namespace Reading

/-- An operation has made the second memory of the first. -/
structure Kept (R : Reading μ σ) (m m' : μ) : Prop where
  sane : R.Sane m'
  later : R.Later m m'

/-- A merge of `s` and `u` to `r` covers what either side covers. -/
structure Merged (R : Reading μ σ) (m : μ) (s u r : σ) (m' : μ) : Prop where
  kept : R.Kept m m'
  fits : R.Fits m' r
  left : ∀ {n x}, R.Later m' n → R.Covers n s x → R.Covers n r x
  right : ∀ {n x}, R.Later m' n → R.Covers n u x → R.Covers n r x

/-- The operations of a domain cover what machines do, read with any later memory. -/
structure Sound (R : Reading μ σ) (D : Domain μ σ) (d : Durations) : Prop where
  refl : ∀ m, R.Later m m
  trans : ∀ {l m n}, R.Later l m → R.Later m n → R.Later l n
  fits : ∀ {m n s}, R.Later m n → R.Fits m s → R.Fits n s
  touch : ∀ {m m' s r address}, R.Sane m → R.Fits m s → D.touch s address m = .ok r m' →
    R.Kept m m' ∧ R.Fits m' r ∧
      ∀ {n x x'}, R.Later m' n → R.Covers n s x → x.touch d address = .ok x' → R.Covers n r x'
  bottom : ∀ {m m' s address}, R.Sane m → R.Fits m s → D.touch s address m = .error .bottom m' →
    R.Kept m m' ∧ ∀ {n x x'}, R.Later m' n → R.Covers n s x → x.touch d address ≠ .ok x'
  elapse : ∀ {m m' s r time}, R.Sane m → R.Fits m s → D.elapse s time m = .ok r m' →
    R.Kept m m' ∧ R.Fits m' r ∧ ∀ {n x}, R.Later m' n → R.Covers n s x → R.Covers n r (x.elapse d time)
  join : ∀ {m m' s u r}, R.Sane m → R.Fits m s → R.Fits m u → D.join s u m = .ok r m' → R.Merged m s u r m'
  widen : ∀ {m m' s u r}, R.Sane m → R.Fits m s → R.Fits m u → D.widen s u m = .ok r m' → R.Merged m s u r m'
  subseteq : ∀ {m m' s u covered}, R.Sane m → R.Fits m s → R.Fits m u → D.subseteq s u m = .ok covered m' →
    R.Kept m m' ∧ (covered = true → ∀ {n x}, R.Later m' n → R.Covers n s x → R.Covers n u x)

end Reading

namespace Fixpoint

/-! ### The memory of a search -/

/-- The memory of a search is sane, and all its states fit it. -/
structure Search.Holds (R : Reading μ σ) (s : Search μ σ) : Prop where
  sane : R.Sane s.memory
  visits : ∀ {loc : Location} {v : Visit σ}, s.visits[loc]? = some v → R.Fits s.memory v.state
  final : ∀ {f : σ}, s.final = some f → R.Fits s.memory f

section Memory
variable {R : Reading μ σ} {D : Domain μ σ} {d : Durations} (hR : R.Sound D d) {limits : Limits} {p : Program}
  {s s' : Search μ σ} {loc : Location} {st : σ} {m : μ}
include hR

theorem Search.Holds.of_kept (hs : s.Holds R) (hk : R.Kept s.memory m) : { s with memory := m }.Holds R where
  sane := hk.sane
  visits hv := hR.fits hk.later (hs.visits hv)
  final hf := hR.fits hk.later (hs.final hf)

theorem Search.Holds.queue (hs : s.Holds R) (hk : R.Kept s.memory m) {v : Visit σ} (hv : R.Fits m v.state) :
    (s.queue m loc v).Holds R where
  sane := hk.sane
  visits {l w} hw := by
    simp only [Search.queue, Std.ExtTreeMap.getElem?_insert] at hw
    split at hw
    · cases hw
      exact hv
    · exact hR.fits hk.later (hs.visits hw)
  final hf := hR.fits hk.later (hs.final hf)

omit hR in
theorem Search.Holds.popped (hs : s.Holds R) {v : Visit σ} (hv : s.visits[loc]? = some v) :
    (s.popped loc v).Holds R where
  sane := hs.sane
  visits {l w} hw := by
    simp only [Search.popped, Std.ExtTreeMap.getElem?_insert] at hw
    split at hw
    · cases hw
      exact hs.visits (v := v) hv
    · exact hs.visits hw
  final := hs.final

theorem kept_refl (hs : s.Holds R) : R.Kept s.memory s.memory := ⟨hs.sane, hR.refl _⟩

theorem kept_trans {l m n : μ} (h₁ : R.Kept l m) (h₂ : R.Kept m n) : R.Kept l n :=
  ⟨h₂.sane, hR.trans h₁.later h₂.later⟩

theorem Arrival.holds {back : Bool} (h : Arrival D limits back loc st s s') (hs : s.Holds R)
    (hst : R.Fits s.memory st) : s'.Holds R ∧ R.Later s.memory s'.memory ∧ s'.final = s.final := by
  cases h with
  | fresh new eq =>
    subst eq
    exact ⟨hs.queue hR (kept_refl hR hs) hst, hR.refl _, rfl⟩
  | join known waiting run eq =>
    subst eq
    have hj := hR.join hs.sane (hs.visits known) hst run
    exact ⟨hs.queue hR hj.kept hj.fits, hj.kept.later, rfl⟩
  | skip known done idle test eq =>
    subst eq
    have hk := (hR.subseteq hs.sane hst (hs.visits known) test).1
    exact ⟨hs.of_kept hR hk, hk.later, rfl⟩
  | widen known done idle test backward round run eq =>
    subst eq
    have hk := (hR.subseteq hs.sane hst (hs.visits known) test).1
    have hw := hR.widen hk.sane (hR.fits hk.later (hs.visits known)) (hR.fits hk.later hst) run
    have hk' := kept_trans hR hk hw.kept
    exact ⟨hs.queue hR hk' hw.fits, hk'.later, rfl⟩
  | replace known done idle test forward eq =>
    subst eq
    have hk := (hR.subseteq hs.sane hst (hs.visits known) test).1
    exact ⟨hs.queue hR hk (hR.fits hk.later hst), hk.later, rfl⟩

theorem Search.Holds.propagate {source : Location} {pc : UInt64} (hs : s.Holds R) (hst : R.Fits s.memory st)
    (h : Fixpoint.propagate D limits source pc st s = .ok () s') :
    s'.Holds R ∧ R.Later s.memory s'.memory ∧ s'.final = s.final :=
  (propagate_eq_ok h).holds hR ⟨hs.sane, hs.visits, hs.final⟩ hst

theorem Search.Holds.conclude (hs : s.Holds R) (hst : R.Fits s.memory st)
    (h : Fixpoint.conclude D loc st s = .ok () s') : s'.Holds R ∧ R.Later s.memory s'.memory := by
  rcases conclude_eq_ok h with ⟨-, rfl⟩ | ⟨f, r, m, hf, hj, rfl⟩
  · exact ⟨⟨hs.sane, hs.visits, fun hf => by cases hf; exact hst⟩, hR.refl _⟩
  · have hj := hR.join hs.sane (hs.final hf) hst hj
    refine ⟨⟨hj.kept.sane, fun hv => hR.fits hj.kept.later (hs.visits hv), fun hf => ?_⟩, hj.kept.later⟩
    cases hf
    exact hj.fits

theorem Search.Holds.interpret (hs : s.Holds R) (hst : R.Fits s.memory st)
    (h : Fixpoint.interpret D limits p loc st s = .ok () s') : s'.Holds R ∧ R.Later s.memory s'.memory := by
  have hl : (s.logging (.step loc (p.opAt loc.pc))).Holds R := ⟨hs.sane, hs.visits, hs.final⟩
  cases interpret_eq_ok h with
  | halt op run => exact hl.conclude hR hst run
  | touch op access run =>
    obtain ⟨hk, hr, -⟩ := hR.touch hs.sane hst access
    obtain ⟨h', hl', -⟩ := (hl.of_kept hR hk).propagate hR hr run
    exact ⟨h', hR.trans hk.later hl'⟩
  | bottom op access eq =>
    subst eq
    have hk := (hR.bottom hs.sane hst access).1
    exact ⟨hl.of_kept hR hk, hk.later⟩
  | elapse op pause run =>
    obtain ⟨hk, hr, -⟩ := hR.elapse hs.sane hst pause
    obtain ⟨h', hl', -⟩ := (hl.of_kept hR hk).propagate hR hr run
    exact ⟨h', hR.trans hk.later hl'⟩
  | branch op pass take =>
    obtain ⟨h₁, hl₁, -⟩ := hl.propagate hR hst pass
    obtain ⟨h₂, hl₂, -⟩ := h₁.propagate hR (hR.fits hl₁ hst) take
    exact ⟨h₂, hR.trans hl₁ hl₂⟩
  | jump op run =>
    obtain ⟨h', hl', -⟩ := hl.propagate hR hst run
    exact ⟨h', hl'⟩

end Memory

/-! ### Covered machines -/

section Covering
variable (γ : σ → Machine → Prop) (seen : UInt64 → σ → Prop) {s : Search μ σ}

/-- A machine at a place is covered by a state that was interpreted there, or that waits to be. -/
def Search.Met (s : Search μ σ) (pc : UInt64) (x : Machine) : Prop :=
  (∃ st, seen pc st ∧ γ st x) ∨
    ∃ (loc : Location) (v : Visit σ), loc.pc = pc ∧ loc ∈ s.pending ∧ s.visits[loc]? = some v ∧ γ v.state x

/-- What waits has a state, and what does not wait after it was interpreted has one that was
    interpreted. -/
structure Search.Ordered (s : Search μ σ) : Prop where
  known : ∀ loc ∈ s.pending, ∃ v, s.visits[loc]? = some v
  done : ∀ {loc : Location} {v : Visit σ}, s.visits[loc]? = some v → v.done = true → loc ∉ s.pending →
    seen loc.pc v.state

/-- The final state covers a machine. -/
def Search.Concluded (s : Search μ σ) (x : Machine) : Prop := ∃ f, s.final = some f ∧ γ f x

variable {γ seen} {loc : Location} {m : μ} {v : Visit σ} {pc : UInt64} {x : Machine}

theorem mem_queue {l : Location} : l ∈ (s.queue m loc v).pending ↔ l = loc ∨ l ∈ s.pending := by
  simp only [Search.queue, Std.ExtTreeSet.mem_insert, Std.LawfulEqCmp.compare_eq_iff_eq, eq_comm (a := loc)]

theorem visits_queue {l : Location} :
    (s.queue m loc v).visits[l]? = if l = loc then some v else s.visits[l]? := by
  simp only [Search.queue, Std.ExtTreeMap.getElem?_insert, Std.LawfulEqCmp.compare_eq_iff_eq, eq_comm (a := loc)]

theorem Search.Ordered.queue (h : s.Ordered seen) : (s.queue m loc v).Ordered seen where
  known l hl := by
    rw [visits_queue]
    split
    · exact ⟨v, rfl⟩
    · rename_i hne
      exact h.known l ((mem_queue.mp hl).resolve_left hne)
  done {l w} hw hd hl := by
    have hne : l ≠ loc := fun h => hl (mem_queue.mpr (Or.inl h))
    rw [visits_queue, if_neg hne] at hw
    exact h.done hw hd fun hm => hl (mem_queue.mpr (Or.inr hm))

/-- A new state at a location loses no machine if it covers what the one that waits there covers. -/
theorem Search.Met.queue (hv : ∀ w, s.visits[loc]? = some w → loc ∈ s.pending → γ w.state x → γ v.state x)
    (h : s.Met γ seen pc x) : (s.queue m loc v).Met γ seen pc x := by
  rcases h with h | ⟨l, w, hpc, hl, hw, hx⟩
  · exact Or.inl h
  · refine Or.inr ?_
    by_cases hne : l = loc
    · subst hne
      exact ⟨l, v, hpc, mem_queue.mpr (Or.inl rfl), by rw [visits_queue, if_pos rfl], hv w hw hl hx⟩
    · exact ⟨l, w, hpc, mem_queue.mpr (Or.inr hl), by rw [visits_queue, if_neg hne]; exact hw, hx⟩

theorem met_queue_self (hx : γ v.state x) : (s.queue m loc v).Met γ seen loc.pc x :=
  Or.inr ⟨loc, v, rfl, mem_queue.mpr (Or.inl rfl), by rw [visits_queue, if_pos rfl], hx⟩

/-! ### Taking a location -/

/-- The states that were interpreted, with one more. -/
def alsoSeen (seen : UInt64 → σ → Prop) (pc : UInt64) (st : σ) : UInt64 → σ → Prop :=
  fun pc' st' => seen pc' st' ∨ pc' = pc ∧ st' = st

theorem mem_popped {l : Location} : l ∈ (s.popped loc v).pending ↔ l ≠ loc ∧ l ∈ s.pending := by
  simp only [Search.popped, Std.ExtTreeSet.mem_erase, ne_eq, Std.LawfulEqCmp.compare_eq_iff_eq, eq_comm (a := loc)]

theorem visits_popped {l : Location} :
    (s.popped loc v).visits[l]? = if l = loc then some { v with done := true } else s.visits[l]? := by
  simp only [Search.popped, Std.ExtTreeMap.getElem?_insert, Std.LawfulEqCmp.compare_eq_iff_eq, eq_comm (a := loc)]

theorem Search.Ordered.popped (h : s.Ordered seen) :
    (s.popped loc v).Ordered (alsoSeen seen loc.pc v.state) where
  known l hl := by
    obtain ⟨hne, hl⟩ := mem_popped.mp hl
    rw [visits_popped, if_neg hne]
    exact h.known l hl
  done {l w} hw hd hl := by
    rw [visits_popped] at hw
    split at hw
    · rename_i heq
      cases hw
      exact Or.inr ⟨by rw [heq], rfl⟩
    · rename_i hne
      exact Or.inl (h.done hw hd fun hm => hl (mem_popped.mpr ⟨hne, hm⟩))

theorem Search.Met.popped (hv : s.visits[loc]? = some v) (h : s.Met γ seen pc x) :
    (s.popped loc v).Met γ (alsoSeen seen loc.pc v.state) pc x := by
  rcases h with ⟨st, hst, hx⟩ | ⟨l, w, hpc, hl, hw, hx⟩
  · exact Or.inl ⟨st, Or.inl hst, hx⟩
  · by_cases hne : l = loc
    · subst hne
      rw [hv] at hw
      cases hw
      exact Or.inl ⟨v.state, Or.inr ⟨hpc.symm, rfl⟩, hx⟩
    · exact Or.inr ⟨l, w, hpc, mem_popped.mpr ⟨hne, hl⟩, by rw [visits_popped, if_neg hne]; exact hw, hx⟩

end Covering

/-! ### What a step of the search keeps -/

/-- From `s` to `s'` no machine is lost that was met or concluded. -/
structure Search.Keeps (γ : σ → Machine → Prop) (seen : UInt64 → σ → Prop) (s s' : Search μ σ) : Prop where
  ordered : s.Ordered seen → s'.Ordered seen
  met : ∀ {pc x}, s.Met γ seen pc x → s'.Met γ seen pc x
  concluded : ∀ {x}, s.Concluded γ x → s'.Concluded γ x

theorem Search.Keeps.trans {γ : σ → Machine → Prop} {seen : UInt64 → σ → Prop} {s t u : Search μ σ}
    (h₁ : s.Keeps γ seen t) (h₂ : t.Keeps γ seen u) : s.Keeps γ seen u :=
  ⟨h₂.ordered ∘ h₁.ordered, h₂.met ∘ h₁.met, h₂.concluded ∘ h₁.concluded⟩

section Step
variable {R : Reading μ σ} {D : Domain μ σ} {d : Durations} (hR : R.Sound D d) {limits : Limits} {p : Program}
  {seen : UInt64 → σ → Prop} {s s' : Search μ σ} {loc : Location} {st : σ} {n : μ}
include hR

theorem Arrival.keeps {back : Bool} (h : Arrival D limits back loc st s s') (hs : s.Holds R)
    (hst : R.Fits s.memory st) (ho : s.Ordered seen) (hn : R.Later s'.memory n) :
    s.Keeps (R.Covers n) seen s' ∧ ∀ {x}, R.Covers n st x → s'.Met (R.Covers n) seen loc.pc x := by
  cases h with
  | fresh new eq =>
    subst eq
    refine ⟨⟨fun h => h.queue, fun h => h.queue fun w hw => ?_, id⟩, fun hx => met_queue_self hx⟩
    rw [new] at hw
    cases hw
  | join known waiting run eq =>
    subst eq
    have hj := hR.join hs.sane (hs.visits known) hst run
    refine ⟨⟨fun h => h.queue, fun h => h.queue fun w hw _ hx => ?_, id⟩, fun hx => met_queue_self (hj.right hn hx)⟩
    rw [known] at hw
    cases hw
    exact hj.left hn hx
  | skip known done idle test eq =>
    subst eq
    -- The state that was interpreted here covers the new one, too.
    have hsub := (hR.subseteq hs.sane hst (hs.visits known) test).2
    exact ⟨⟨fun h => ⟨h.known, h.done⟩, id, id⟩, fun hx => Or.inl ⟨_, ho.done known done idle, hsub rfl hn hx⟩⟩
  | widen known done idle test backward round run eq =>
    subst eq
    have hk := (hR.subseteq hs.sane hst (hs.visits known) test).1
    have hw := hR.widen hk.sane (hR.fits hk.later (hs.visits known)) (hR.fits hk.later hst) run
    exact ⟨⟨fun h => h.queue, fun h => h.queue fun _ _ hl => absurd hl idle, id⟩,
      fun hx => met_queue_self (hw.right hn hx)⟩
  | replace known done idle test forward eq =>
    subst eq
    -- The state that is overwritten does not wait, so nobody relies on it any more.
    exact ⟨⟨fun h => h.queue, fun h => h.queue fun _ _ hl => absurd hl idle, id⟩, fun hx => met_queue_self hx⟩

theorem propagate_keeps {source : Location} {pc : UInt64}
    (h : propagate D limits source pc st s = .ok () s') (hs : s.Holds R) (hst : R.Fits s.memory st)
    (ho : s.Ordered seen) (hn : R.Later s'.memory n) :
    s.Keeps (R.Covers n) seen s' ∧ ∀ {x}, R.Covers n st x → s'.Met (R.Covers n) seen pc x := by
  obtain ⟨hk, hx⟩ := (propagate_eq_ok h).keeps hR ⟨hs.sane, hs.visits, hs.final⟩ hst ⟨ho.known, ho.done⟩ hn
  exact ⟨⟨fun h => hk.ordered ⟨h.known, h.done⟩, hk.met, hk.concluded⟩, hx⟩

/-- Passing on the result of an operation that has changed the memory. -/
theorem operation_keeps {source : Location} {pc : UInt64} {e : Event} {m : μ} {r : σ}
    (h : propagate D limits source pc r { s.logging e with memory := m } = .ok () s') (hs : s.Holds R)
    (hk : R.Kept s.memory m) (hr : R.Fits m r) (ho : s.Ordered seen) (hn : R.Later s'.memory n) :
    s.Keeps (R.Covers n) seen s' ∧ R.Later m n ∧ ∀ {x}, R.Covers n r x → s'.Met (R.Covers n) seen pc x := by
  have hl : (s.logging e).Holds R := ⟨hs.sane, hs.visits, hs.final⟩
  have hm := hl.of_kept hR hk
  obtain ⟨-, hlater, -⟩ := hm.propagate hR hr h
  obtain ⟨hkeep, hmet⟩ := propagate_keeps hR h hm hr ⟨ho.known, ho.done⟩ hn
  exact ⟨⟨fun h => hkeep.ordered ⟨h.known, h.done⟩, hkeep.met, hkeep.concluded⟩, hR.trans hlater hn, hmet⟩

theorem conclude_keeps (h : conclude D loc st s = .ok () s') (hs : s.Holds R) (hst : R.Fits s.memory st)
    (hn : R.Later s'.memory n) :
    s.Keeps (R.Covers n) seen s' ∧ ∀ {x}, R.Covers n st x → s'.Concluded (R.Covers n) x := by
  rcases conclude_eq_ok h with ⟨hf, rfl⟩ | ⟨f, r, m, hf, hj, rfl⟩
  · refine ⟨⟨fun h => ⟨h.known, h.done⟩, id, fun ⟨f, hf', _⟩ => ?_⟩, fun hx => ⟨st, rfl, hx⟩⟩
    rw [hf] at hf'
    cases hf'
  · have hj := hR.join hs.sane (hs.final hf) hst hj
    refine ⟨⟨fun h => ⟨h.known, h.done⟩, id, fun ⟨f', hf', hx⟩ => ?_⟩, fun hx => ⟨r, rfl, hj.right hn hx⟩⟩
    rw [hf] at hf'
    cases hf'
    exact ⟨r, rfl, hj.left hn hx⟩

/-- Interpreting a state at a location covers each step of the machines that it covers. -/
theorem interpret_keeps (h : interpret D limits p loc st s = .ok () s') (hs : s.Holds R)
    (hst : R.Fits s.memory st) (ho : s.Ordered seen) (hn : R.Later s'.memory n) :
    s.Keeps (R.Covers n) seen s' ∧
      (∀ {x pc x'}, R.Covers n st x → Machine.Step p d loc.pc x pc x' → s'.Met (R.Covers n) seen pc x') ∧
      (p.opAt loc.pc = .halt → ∀ {x}, R.Covers n st x → s'.Concluded (R.Covers n) x) := by
  have hl : (s.logging (.step loc (p.opAt loc.pc))).Holds R := ⟨hs.sane, hs.visits, hs.final⟩
  have hol : (s.logging (.step loc (p.opAt loc.pc))).Ordered seen := ⟨ho.known, ho.done⟩
  have hsl : s.Keeps (R.Covers n) seen (s.logging (.step loc (p.opAt loc.pc))) :=
    ⟨fun h => ⟨h.known, h.done⟩, id, id⟩
  cases interpret_eq_ok h with
  | halt op run =>
    obtain ⟨hk, hx⟩ := conclude_keeps hR run hl hst hn
    refine ⟨hsl.trans hk, fun _ hstep => ?_, fun _ => hx⟩
    cases hstep <;> simp_all
  | touch op access run =>
    obtain ⟨hk, hr, hx⟩ := hR.touch hs.sane hst access
    obtain ⟨hkeep, hlater, hmet⟩ := operation_keeps hR run hs hk hr ho hn
    refine ⟨hkeep, fun hc hstep => ?_, fun hop => ?_⟩
    · cases hstep with
      | touch _ hrun => exact hmet (hx hlater hc hrun)
      | _ => simp_all
    · simp_all
  | bottom op access eq =>
    subst eq
    obtain ⟨hk, hx⟩ := hR.bottom hs.sane hst access
    -- Nothing is passed on, but no machine that is covered goes on, either.
    refine ⟨⟨fun h => ⟨h.known, h.done⟩, id, id⟩, fun hc hstep => ?_, fun hop => ?_⟩
    · cases hstep with
      | touch _ hrun => exact absurd hrun (hx hn hc)
      | _ => simp_all
    · simp_all
  | elapse op pause run =>
    obtain ⟨hk, hr, hx⟩ := hR.elapse hs.sane hst pause
    obtain ⟨hkeep, hlater, hmet⟩ := operation_keeps hR run hs hk hr ho hn
    refine ⟨hkeep, fun hc hstep => ?_, fun hop => ?_⟩
    · cases hstep with
      | elapse => exact hmet (hx hlater hc)
      | _ => simp_all
    · simp_all
  | branch op pass take =>
    obtain ⟨h₁, hl₁, -⟩ := hl.propagate hR hst pass
    have hst' := hR.fits hl₁ hst
    have hl₂ := (h₁.propagate hR hst' take).2.1
    obtain ⟨hk₁, hm₁⟩ := propagate_keeps hR pass hl hst hol (hR.trans hl₂ hn)
    obtain ⟨hk₂, hm₂⟩ := propagate_keeps hR take h₁ hst' (hk₁.ordered hol) hn
    refine ⟨hsl.trans (hk₁.trans hk₂), fun hc hstep => ?_, fun hop => ?_⟩
    · cases hstep with
      | pass => exact hk₂.met (hm₁ hc)
      | take => exact hm₂ hc
      | _ => simp_all
    · simp_all
  | jump op run =>
    obtain ⟨hkeep, hmet⟩ := propagate_keeps hR run hl hst hol hn
    refine ⟨hsl.trans hkeep, fun hc hstep => ?_, fun hop => ?_⟩
    · cases hstep with
      | jump => exact hmet hc
      | _ => simp_all
    · simp_all

end Step

/-! ### The whole search -/

/-- All machines on the way from `x₀` are covered by what was interpreted or waits, and those that halt
    are concluded. -/
structure Search.Covering (γ : σ → Machine → Prop) (p : Program) (d : Durations) (x₀ : Machine)
    (seen : UInt64 → σ → Prop) (s : Search μ σ) : Prop where
  ordered : s.Ordered seen
  start : s.Met γ seen 0 x₀
  passed : ∀ {pc st x pc' x'}, seen pc st → γ st x → Machine.Step p d pc x pc' x' → s.Met γ seen pc' x'
  halted : ∀ {pc st x}, seen pc st → γ st x → p.opAt pc = .halt → s.Concluded γ x

variable {R : Reading μ σ} {D : Domain μ σ} {d : Durations} {limits : Limits} {p : Program} {x₀ : Machine}

theorem Search.Covering.interpret (hR : R.Sound D d) {seen : UInt64 → σ → Prop} {s s' : Search μ σ} {loc : Location}
    {v : Visit σ} {n : μ} (hc : s.Covering (R.Covers n) p d x₀ seen) (hs : s.Holds R)
    (hv : s.visits[loc]? = some v) (h : Fixpoint.interpret D limits p loc v.state (s.popped loc v) = .ok () s')
    (hn : R.Later s'.memory n) : s'.Covering (R.Covers n) p d x₀ (alsoSeen seen loc.pc v.state) := by
  obtain ⟨hk, hstep, hhalt⟩ := interpret_keeps hR h (hs.popped hv) (hs.visits hv) hc.ordered.popped hn
  constructor
  · exact hk.ordered hc.ordered.popped
  · exact hk.met (hc.start.popped hv)
  · rintro pc st x pc' x' (hseen | ⟨rfl, rfl⟩) hx hm
    · exact hk.met ((hc.passed hseen hx hm).popped hv)
    · exact hstep hx hm
  · rintro pc st x (hseen | ⟨rfl, rfl⟩) hx hop
    · exact hk.concluded (hc.halted hseen hx hop)
    · exact hhalt hop hx

theorem Search.Covering.reached {γ : σ → Machine → Prop} {seen : UInt64 → σ → Prop} {s : Search μ σ}
    (hc : s.Covering γ p d x₀ seen) (hnone : ∀ loc, loc ∉ s.pending) {f g : Path}
    (hf : f.pc = 0 ∧ f.machine = x₀) (h : Path.Reaches p d f g) : ∃ st, seen g.pc st ∧ γ st g.machine := by
  -- No state waits, so a machine that is met is covered by an interpreted state.
  have of_met : ∀ {pc x}, s.Met γ seen pc x → ∃ st, seen pc st ∧ γ st x := fun hm =>
    hm.resolve_right fun ⟨loc, _, _, hl, _⟩ => hnone loc hl
  induction h with
  | refl =>
    rw [hf.1, hf.2]
    exact of_met hc.start
  | tail _ hstep ih =>
    obtain ⟨st, hseen, hx⟩ := ih
    exact of_met (hc.passed hseen hx hstep.machine)

/-- A search that has come to its end covers all executions by its final state. -/
theorem loop_covers (hR : R.Sound D d) {final : σ} {e : Search μ σ} :
    ∀ {fuel : Nat} {s : Search μ σ}, loop D limits p fuel s = .ok final e → s.Holds R →
      R.Kept s.memory e.memory ∧
        ∀ {x₀ : Machine} {seen : UInt64 → σ → Prop}, s.Covering (R.Covers e.memory) p d x₀ seen →
          ∀ {f g : Path}, f.pc = 0 ∧ f.machine = x₀ → Path.Reaches p d f g → p.opAt g.pc = .halt →
            R.Covers e.memory final g.machine
  | 0, s, h, _ => by cases h
  | fuel + 1, s, h, hs => by
    unfold loop at h
    obtain ⟨next, t, hpop, hrest⟩ := bind_eq_ok.mp h
    cases next with
    | none =>
      obtain ⟨rfl, hempty⟩ := pop_eq_none hpop
      obtain ⟨hfinal, hmem⟩ := finish_eq_ok hrest
      rw [hmem]
      refine ⟨kept_refl hR hs, fun hc f g hf hreach hhalt => ?_⟩
      have hnone : ∀ loc, loc ∉ t.pending := by
        rcases hempty with hmin | ⟨l, hmin, hv⟩
        · intro loc hl
          rw [Std.ExtTreeSet.min?_eq_none_iff] at hmin
          simp [hmin] at hl
        · obtain ⟨v, hv'⟩ := hc.ordered.known l (Std.ExtTreeSet.min?_mem hmin)
          rw [hv] at hv'
          cases hv'
      obtain ⟨st, hseen, hx⟩ := hc.reached hnone hf hreach
      obtain ⟨f', hf', hx'⟩ := hc.halted hseen hx hhalt
      rw [hfinal] at hf'
      cases hf'
      exact hx'
    | some next =>
      obtain ⟨loc, st⟩ := next
      obtain ⟨v, -, hv, rfl, rfl⟩ := pop_eq_some hpop
      obtain ⟨_, u, hint, hloop⟩ := bind_eq_ok.mp hrest
      obtain ⟨hu, hlater⟩ := (hs.popped hv).interpret hR (hs.visits hv) hint
      obtain ⟨hend, hcover⟩ := loop_covers hR hloop hu
      exact ⟨⟨hend.sane, hR.trans hlater hend.later⟩, fun hc => hcover (hc.interpret hR hs hv hint hend.later)⟩

theorem visits_start {D : Domain μ σ} {m : μ} {loc : Location} :
    (Search.start D m).visits[loc]? = if loc = .start then some { state := D.init } else none := by
  simp only [Search.start, Std.ExtTreeMap.getElem?_insert, Std.LawfulEqCmp.compare_eq_iff_eq,
    eq_comm (a := Location.start)]
  rfl

theorem mem_start {D : Domain μ σ} {m : μ} {loc : Location} :
    loc ∈ (Search.start D m).pending ↔ loc = .start := by
  simp [Search.start, eq_comm (a := Location.start)]

theorem holds_start {R : Reading μ σ} {D : Domain μ σ} {m : μ} (hm : R.Sane m) (hinit : R.Fits m D.init) :
    (Search.start D m).Holds R where
  sane := hm
  visits {loc v} hv := by
    rw [visits_start] at hv
    split at hv
    · cases hv
      exact hinit
    · cases hv
  final hf := by cases hf

theorem covering_start {γ : σ → Machine → Prop} {p : Program} {d : Durations} {x₀ : Machine} {D : Domain μ σ} {m : μ}
    (h : γ D.init x₀) : (Search.start D m).Covering γ p d x₀ fun _ _ => False where
  ordered := by
    refine ⟨fun loc hl => ⟨_, by rw [visits_start, if_pos (mem_start.mp hl)]⟩, fun {loc v} hv _ hl => ?_⟩
    rw [visits_start, if_neg fun h => hl (mem_start.mpr h)] at hv
    cases hv
  start := Or.inr ⟨.start, _, rfl, mem_start.mpr rfl, by rw [visits_start, if_pos rfl], h⟩
  passed := False.elim
  halted := False.elim

end Fixpoint

/-- What an analysis with a sound domain converges to covers every execution. -/
theorem Reading.Sound.analyze {R : Reading μ σ} {D : Domain μ σ} {d : Durations} (hR : R.Sound D d) {limits : Limits}
    {p : Program} {m : μ} {final : σ} (hm : R.Sane m) (hinit : R.Fits m D.init)
    (h : (CacheTiming.analyze D limits p m).verdict = .converged final) :
    R.Sane (CacheTiming.analyze D limits p m).memory ∧
      ∀ {cache : RecencyCache} {f : Path}, (∀ n, R.Later m n → R.Covers n D.init { cache }) →
        Path.Execution p d cache f → R.Covers (CacheTiming.analyze D limits p m).memory final f.machine := by
  unfold CacheTiming.analyze at h ⊢
  cases hrun : Fixpoint.loop D limits p (Fixpoint.bound p limits) (.start D m) with
  | error e s =>
    rw [hrun] at h
    cases e <;> cases h
  | ok final' e =>
    rw [hrun] at h
    cases h
    obtain ⟨hkept, hcovers⟩ := Fixpoint.loop_covers hR hrun (Fixpoint.holds_start hm hinit)
    refine ⟨hkept.sane, fun hcover hf => ?_⟩
    exact hcovers (Fixpoint.covering_start (hcover _ hkept.later)) ⟨rfl, rfl⟩ hf.reached hf.halted

end CacheTiming
