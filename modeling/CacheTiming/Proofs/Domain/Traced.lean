import CacheTiming.Domain.Traced
import CacheTiming.Proofs.Domain.Action
import CacheTiming.Proofs.Domain.CacheModel
import CacheTiming.Proofs.Fixpoint.Coverage
import CacheTiming.Proofs.Trace.Times

/-! What the operations of the trace domain do, and that they cover caches and times.

How often precision was lost is written to the memory and read by no operation, so the lemmas on the
operations say only what becomes of the store. -/

namespace CacheTiming.Traced

variable {χ : Type} {t : Timing} {s u r : Traced χ} {status : Status} {m m' : Memory} {address time : UInt64}

/-! ### The operations -/

theorem inStore_of_error {f : Store → Except TraceError (NodeId × Store)} {e : TraceError} (h : f m.store = .error e) :
    inStore f m = .error (.trace e) m := by
  refine bind_eq_error.mpr (.inr ⟨m, m, rfl, ?_⟩)
  simp only [h]
  rfl

theorem inStore_eq_ok {f : Store → Except TraceError (NodeId × Store)} {n : NodeId} :
    inStore f m = .ok n m' ↔ ∃ store, f m.store = .ok (n, store) ∧ m' = { m with store } := by
  cases h : f m.store with
  | ok r =>
    obtain ⟨k, store⟩ := r
    have hf : inStore f m = .ok k { m with store } := by
      refine bind_eq_ok.mpr ⟨m, m, rfl, ?_⟩
      simp only [h]
      rfl
    rw [hf]
    constructor
    · intro heq
      cases heq
      exact ⟨store, rfl, rfl⟩
    · rintro ⟨_, heq, rfl⟩
      cases heq
      rfl
  | error e =>
    rw [inStore_of_error h]
    exact ⟨nofun, nofun⟩

theorem inStore_eq_error {f : Store → Except TraceError (NodeId × Store)} {e : Failure} (h : inStore f m = .error e m') :
    ∃ e', f m.store = .error e' ∧ e = .trace e' ∧ m' = m := by
  rcases bind_eq_error.mp h with h | ⟨_, _, h₁, h⟩
  · cases h
  · cases h₁
    cases hf : f m.store with
    | ok r =>
      simp only [hf] at h
      cases h
    | error e' =>
      simp only [hf] at h
      cases h
      exact ⟨e', rfl, rfl, rfl⟩

theorem inStore_ne_bottom {f : Store → Except TraceError (NodeId × Store)} : inStore f m ≠ .error .bottom m' := by
  intro h
  obtain ⟨_, -, h, -⟩ := inStore_eq_error h
  cases h

theorem exists_noteCollapse (before after : Times) (m : Memory) :
    ∃ losses, noteCollapse before after m = .ok () { m with losses } := by
  unfold noteCollapse
  split
  · exact ⟨_, rfl⟩
  · exact ⟨m.losses, rfl⟩

/-- The state and the store that an observation leaves. -/
inductive Observed (t : Timing) (s : Traced χ) (status : Status) (store : Store) : Traced χ → Store → Prop where
  | intro {trace : NodeId} {store' : Store} {times : Times}
      (extended : store.extend s.trace status = .ok (trace, store'))
      (shifted : s.times.shiftBy status t.durations t.maxTimes = .ok times) :
      Observed t s status store { trace, cache := s.cache, times } store'

theorem observe_eq_ok (h : observe t s status m = .ok r m') : Observed t s status m.store r m'.store := by
  unfold observe at h
  obtain ⟨n, m₁, hn, hrest⟩ := bind_eq_ok.mp h
  obtain ⟨store, hstore, rfl⟩ := inStore_eq_ok.mp hn
  cases htimes : s.times.shiftBy status t.durations t.maxTimes with
  | error e =>
    simp only [htimes] at hrest
    cases hrest
  | ok times =>
    simp only [htimes] at hrest
    obtain ⟨_, _, hnote, hret⟩ := bind_eq_ok.mp hrest
    obtain ⟨losses, heq⟩ := exists_noteCollapse s.times times { m with store }
    cases heq.symm.trans hnote
    cases hret
    exact .intro hstore htimes

theorem Observed.exists_observe {store' : Store} (h : Observed t s status m.store r store') :
    ∃ losses, observe t s status m = .ok r { store := store', losses } := by
  cases h with
  | @intro trace _ times hextended hshifted =>
    obtain ⟨losses, hnote⟩ := exists_noteCollapse s.times times { m with store := store' }
    refine ⟨losses, bind_eq_ok.mpr ⟨_, _, inStore_eq_ok.mpr ⟨_, hextended, rfl⟩, ?_⟩⟩
    simp only [hshifted]
    exact bind_eq_ok.mpr ⟨_, _, hnote, rfl⟩

theorem observe_ne_bottom : observe t s status m ≠ .error .bottom m' := by
  intro h
  unfold observe at h
  rcases bind_eq_error.mp h with h | ⟨n, m₁, -, hrest⟩
  · exact inStore_ne_bottom h
  cases htimes : s.times.shiftBy status t.durations t.maxTimes with
  | error e =>
    simp only [htimes] at hrest
    cases hrest
  | ok times =>
    simp only [htimes] at hrest
    obtain ⟨losses, hnote⟩ := exists_noteCollapse s.times times m₁
    rcases bind_eq_error.mp hrest with h | ⟨_, _, -, h⟩
    · cases hnote.symm.trans h
    · cases h

theorem merge_eq_ok {traces : Store → NodeId → NodeId → Except TraceError (NodeId × Store)}
    {caches : χ → χ → Except Fault χ} (h : merge t traces caches s u m = .ok r m') :
    traces m.store s.trace u.trace = .ok (r.trace, m'.store) ∧ caches s.cache u.cache = .ok r.cache ∧
      r.times = .union t.maxTimes s.times u.times := by
  unfold merge at h
  obtain ⟨n, m₁, hn, hrest⟩ := bind_eq_ok.mp h
  obtain ⟨store, hstore, rfl⟩ := inStore_eq_ok.mp hn
  obtain ⟨cache, m₂, hf, hrest⟩ := bind_eq_ok.mp hrest
  obtain ⟨hcache, rfl⟩ := Action.ofFault_eq_ok.mp hf
  obtain ⟨_, _, hnote, hret⟩ := bind_eq_ok.mp hrest
  obtain ⟨losses, heq⟩ := exists_noteCollapse s.times (.union t.maxTimes s.times u.times) { m with store }
  cases heq.symm.trans hnote
  cases hret
  exact ⟨hstore, hcache, rfl⟩

section CacheModel
variable [CacheModel χ]

theorem touch_eq_ok (h : touch t s address m = .ok r m') :
    ∃ o status cache, CacheModel.touch s.cache address = .ok o ∧ o.Resolved status cache ∧
      Observed t { s with cache } status m.store r m'.store := by
  unfold touch at h
  obtain ⟨o, m₁, hf, hrest⟩ := bind_eq_ok.mp h
  obtain ⟨ho, rfl⟩ := Action.ofFault_eq_ok.mp hf
  cases hhit : o.hit with
  | none =>
    cases hmiss : o.miss with
    | none =>
      simp only [hhit, hmiss] at hrest
      obtain ⟨-, -, -, hrest⟩ := bind_eq_ok.mp hrest
      cases hrest
    | some miss =>
      simp only [hhit, hmiss] at hrest
      exact ⟨o, .miss, miss, ho, .miss hhit hmiss, observe_eq_ok hrest⟩
  | some hit =>
    cases hmiss : o.miss with
    | none =>
      simp only [hhit, hmiss] at hrest
      exact ⟨o, .hit, hit, ho, .hit hhit hmiss, observe_eq_ok hrest⟩
    | some miss =>
      simp only [hhit, hmiss] at hrest
      obtain ⟨cache, m₂, hf₂, hobs⟩ := bind_eq_ok.mp hrest
      obtain ⟨hjoin, rfl⟩ := Action.ofFault_eq_ok.mp hf₂
      exact ⟨o, .hitOrMiss, cache, ho, .both hhit hmiss hjoin, observe_eq_ok hobs⟩

theorem Observed.exists_touch {o : Outcomes χ} {cache : χ} {store : Store}
    (ho : CacheModel.touch s.cache address = .ok o) (hr : o.Resolved status cache)
    (hobs : Observed t { s with cache } status m.store r store) :
    ∃ losses, touch t s address m = .ok r { store, losses } := by
  unfold touch
  obtain ⟨losses, h⟩ := hobs.exists_observe
  refine ⟨losses, bind_eq_ok.mpr ⟨o, m, Action.ofFault_eq_ok.mpr ⟨ho, rfl⟩, ?_⟩⟩
  cases hr with
  | hit hhit hmiss =>
    simp only [hhit, hmiss]
    exact h
  | miss hhit hmiss =>
    simp only [hhit, hmiss]
    exact h
  | both hhit hmiss hjoin =>
    simp only [hhit, hmiss]
    exact bind_eq_ok.mpr ⟨_, _, Action.ofFault_eq_ok.mpr ⟨hjoin, rfl⟩, h⟩

theorem touch_eq_bottom (h : touch t s address m = .error .bottom m') :
    ∃ o, CacheModel.touch s.cache address = .ok o ∧ o.hit = none ∧ o.miss = none ∧ m'.store = m.store := by
  unfold touch at h
  rcases bind_eq_error.mp h with h | ⟨o, m₁, hf, hrest⟩
  · obtain ⟨_, -, h, -⟩ := Action.ofFault_eq_error.mp h
    cases h
  obtain ⟨ho, rfl⟩ := Action.ofFault_eq_ok.mp hf
  refine ⟨o, ho, ?_⟩
  cases hhit : o.hit with
  | none =>
    cases hmiss : o.miss with
    | none =>
      simp only [hhit, hmiss] at hrest
      rcases bind_eq_error.mp hrest with hrest | ⟨_, _, hmod, hrest⟩
      · cases hrest
      · cases hmod
        cases hrest
        exact ⟨rfl, rfl, rfl⟩
    | some miss =>
      simp only [hhit, hmiss] at hrest
      exact absurd hrest observe_ne_bottom
  | some hit =>
    cases hmiss : o.miss with
    | none =>
      simp only [hhit, hmiss] at hrest
      exact absurd hrest observe_ne_bottom
    | some miss =>
      simp only [hhit, hmiss] at hrest
      rcases bind_eq_error.mp hrest with hrest | ⟨_, _, -, hrest⟩
      · obtain ⟨_, -, hrest, -⟩ := Action.ofFault_eq_error.mp hrest
        cases hrest
      · exact absurd hrest observe_ne_bottom

theorem elapse_eq_ok (h : elapse t s time m = .ok r m') :
    Observed t { s with cache := CacheModel.elapse s.cache time, times := s.times.shift time } .noAccess
      m.store r m'.store := by
  unfold elapse at h
  obtain ⟨_, _, hnote, hobs⟩ := bind_eq_ok.mp h
  obtain ⟨losses, heq⟩ := exists_noteCollapse s.times (s.times.shift time) m
  cases heq.symm.trans hnote
  have hobserved := observe_eq_ok hobs
  exact hobserved

theorem Observed.exists_elapse {store : Store}
    (hobs : Observed t { s with cache := CacheModel.elapse s.cache time, times := s.times.shift time } .noAccess
      m.store r store) : ∃ losses, elapse t s time m = .ok r { store, losses } := by
  obtain ⟨losses, hnote⟩ := exists_noteCollapse s.times (s.times.shift time) m
  obtain ⟨losses', h⟩ := Observed.exists_observe (m := { m with losses }) hobs
  exact ⟨losses', bind_eq_ok.mpr ⟨_, _, hnote, h⟩⟩

theorem subseteq_eq_ok {covered : Bool} (h : subseteq s u m = .ok covered m') :
    m' = m ∧ (covered = true → CacheModel.subseteq s.cache u.cache = .ok true ∧
      s.times.subseteq u.times = true ∧ m.store.subseteq s.trace u.trace = true) := by
  unfold subseteq at h
  obtain ⟨cached, m₁, hf, hrest⟩ := bind_eq_ok.mp h
  obtain ⟨hcached, rfl⟩ := Action.ofFault_eq_ok.mp hf
  split at hrest
  · rename_i hc
    obtain ⟨rfl, htimes⟩ := Bool.and_eq_true_iff.mp hc
    cases hrest
    exact ⟨rfl, fun htraces => ⟨hcached, htimes, htraces⟩⟩
  · cases hrest
    exact ⟨rfl, nofun⟩

end CacheModel

/-! ### Caches and times -/

/-- A state covers machines whose caches its cache covers and whose times it admits. -/
def timesReading (Valid : χ → Prop) (Covers : χ → RecencyCache → Prop) : Reading Memory (Traced χ) where
  Sane _ := True
  Later _ _ := True
  Fits _ s := Valid s.cache
  Covers _ s x := Covers s.cache x.cache ∧ s.times.Admits x

section Times
variable {Valid : χ → Prop} {Covers : χ → RecencyCache → Prop}

theorem merged_times {traces : Store → NodeId → NodeId → Except TraceError (NodeId × Store)}
    {caches : χ → χ → Except Fault χ} (hcaches : CacheModel.Merges Valid Covers caches) (hs : Valid s.cache)
    (hu : Valid u.cache) (hm : merge t traces caches s u m = .ok r m') :
    (timesReading Valid Covers).Merged m s u r m' := by
  obtain ⟨-, hcache, htimes⟩ := merge_eq_ok hm
  obtain ⟨hv, hcov⟩ := hcaches hs hu hcache
  refine ⟨⟨trivial, trivial⟩, hv, fun _ hx => ⟨hcov (.inl hx.1), ?_⟩, fun _ hx => ⟨hcov (.inr hx.1), ?_⟩⟩
  · exact htimes ▸ hx.2.union_left u.times
  · exact htimes ▸ hx.2.union_right s.times

theorem times_sound [CacheModel χ] (h : CacheModel.Sound Valid Covers) (t : Timing) (initial : χ) :
    (timesReading Valid Covers).Sound (domain t initial) t.durations where
  refl _ := trivial
  trans _ _ := trivial
  fits _ hs := hs
  touch _ hs ht := by
    obtain ⟨o, status, cache, ho, hr, ⟨hextended, hshifted⟩⟩ := touch_eq_ok ht
    refine ⟨⟨trivial, trivial⟩, h.valid_resolved hs ho hr, fun _ hx hx' => ?_⟩
    obtain ⟨hit, cache', ha, rfl⟩ := Machine.touch_eq_ok.mp hx'
    obtain ⟨hcov, hmem⟩ := h.covers_resolved hs ho hr hx.1 ha
    exact ⟨hcov, hx.2.shiftBy hshifted hmem⟩
  bottom _ hs ht := by
    obtain ⟨o, ho, hhit, hmiss, -⟩ := touch_eq_bottom ht
    refine ⟨⟨trivial, trivial⟩, fun _ hx hx' => ?_⟩
    obtain ⟨hit, cache, ha, -⟩ := Machine.touch_eq_ok.mp hx'
    exact h.not_access hs ho hhit hmiss hx.1 ha
  elapse {_ _ s r time} _ hs he := by
    obtain ⟨hextended, hshifted⟩ := elapse_eq_ok he
    obtain ⟨hv, hcov⟩ := h.elapse hs
    refine ⟨⟨trivial, trivial⟩, hv, fun _ hx => ⟨hcov hx.1, ?_⟩⟩
    cases hshifted
    exact hx.2.elapse t.durations time
  join _ hs hu hm := merged_times h.join hs hu hm
  widen _ hs hu hm := merged_times h.widen hs hu hm
  subseteq _ _ _ hm := by
    obtain ⟨rfl, hsub⟩ := subseteq_eq_ok hm
    refine ⟨⟨trivial, trivial⟩, fun hcovered _ _ _ hx => ?_⟩
    obtain ⟨hcache, htimes, -⟩ := hsub hcovered
    exact ⟨h.subseteq hcache hx.1, hx.2.of_subseteq htimes⟩

end Times

end CacheTiming.Traced
