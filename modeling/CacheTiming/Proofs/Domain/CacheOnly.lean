import CacheTiming.Domain.CacheOnly
import CacheTiming.Proofs.Domain.Action
import CacheTiming.Proofs.Domain.CacheModel
import CacheTiming.Proofs.Fixpoint.Coverage

/-! The domain of caches alone covers the caches of machines. -/

namespace CacheTiming.CacheOnly

variable {χ : Type} [CacheModel χ] {c r : χ} {address : UInt64} {m m' : Losses}

theorem touch_eq_ok (h : touch c address m = .ok r m') :
    ∃ o status, CacheModel.touch c address = .ok o ∧ o.Resolved status r := by
  unfold touch at h
  obtain ⟨o, m₁, hf, hrest⟩ := bind_eq_ok.mp h
  obtain ⟨ho, rfl⟩ := Action.ofFault_eq_ok.mp hf
  cases hhit : o.hit with
  | none =>
    cases hmiss : o.miss with
    | none =>
      simp only [hhit, hmiss] at hrest
      obtain ⟨-, -, -, hrest⟩ := bind_eq_ok.mp hrest
      cases hrest
    | some miss =>
      simp only [hhit, hmiss] at hrest
      cases hrest
      exact ⟨o, .miss, ho, .miss hhit hmiss⟩
  | some hit =>
    cases hmiss : o.miss with
    | none =>
      simp only [hhit, hmiss] at hrest
      cases hrest
      exact ⟨o, .hit, ho, .hit hhit hmiss⟩
    | some miss =>
      simp only [hhit, hmiss] at hrest
      exact ⟨o, .hitOrMiss, ho, .both hhit hmiss (Action.ofFault_eq_ok.mp hrest).1⟩

theorem touch_of_resolved {o : Outcomes χ} {status : Status} (ho : CacheModel.touch c address = .ok o)
    (hr : o.Resolved status r) (m : Losses) : touch c address m = .ok r m := by
  refine bind_eq_ok.mpr ⟨o, m, Action.ofFault_eq_ok.mpr ⟨ho, rfl⟩, ?_⟩
  cases hr with
  | hit hhit hmiss =>
    simp only [hhit, hmiss]
    rfl
  | miss hhit hmiss =>
    simp only [hhit, hmiss]
    rfl
  | both hhit hmiss hjoin =>
    simp only [hhit, hmiss]
    exact Action.ofFault_eq_ok.mpr ⟨hjoin, rfl⟩

theorem touch_of_none {o : Outcomes χ} (ho : CacheModel.touch c address = .ok o) (hhit : o.hit = none)
    (hmiss : o.miss = none) (m : Losses) : touch c address m = .error .bottom { m with bottoms := m.bottoms + 1 } := by
  refine bind_eq_error.mpr (.inr ⟨o, m, Action.ofFault_eq_ok.mpr ⟨ho, rfl⟩, ?_⟩)
  simp only [hhit, hmiss]
  rfl

theorem touch_eq_bottom (h : touch c address m = .error .bottom m') :
    ∃ o, CacheModel.touch c address = .ok o ∧ o.hit = none ∧ o.miss = none := by
  unfold touch at h
  rcases bind_eq_error.mp h with h | ⟨o, m₁, hf, hrest⟩
  · obtain ⟨_, -, h, -⟩ := Action.ofFault_eq_error.mp h
    cases h
  obtain ⟨ho, rfl⟩ := Action.ofFault_eq_ok.mp hf
  refine ⟨o, ho, ?_⟩
  cases hhit : o.hit with
  | none =>
    cases hmiss : o.miss with
    | none => exact ⟨rfl, rfl⟩
    | some miss =>
      simp only [hhit, hmiss] at hrest
      cases hrest
  | some hit =>
    cases hmiss : o.miss with
    | none =>
      simp only [hhit, hmiss] at hrest
      cases hrest
    | some miss =>
      simp only [hhit, hmiss] at hrest
      obtain ⟨_, -, hrest, -⟩ := Action.ofFault_eq_error.mp hrest
      cases hrest

/-- A state is a cache, and covers machines whose caches it covers. -/
def reading (Valid : χ → Prop) (Covers : χ → RecencyCache → Prop) : Reading Losses χ where
  Sane _ := True
  Later _ _ := True
  Fits _ c := Valid c
  Covers _ c x := Covers c x.cache

theorem sound {Valid : χ → Prop} {Covers : χ → RecencyCache → Prop} (h : CacheModel.Sound Valid Covers)
    (initial : χ) (d : Durations) : (reading Valid Covers).Sound (domain initial) d where
  refl _ := trivial
  trans _ _ := trivial
  fits _ hc := hc
  touch _ hc ht := by
    obtain ⟨o, status, ho, hr⟩ := touch_eq_ok ht
    refine ⟨⟨trivial, trivial⟩, h.valid_resolved hc ho hr, fun _ hx hx' => ?_⟩
    obtain ⟨hit, cache, ha, rfl⟩ := Machine.touch_eq_ok.mp hx'
    exact (h.covers_resolved hc ho hr hx ha).1
  bottom _ hc ht := by
    obtain ⟨o, ho, hhit, hmiss⟩ := touch_eq_bottom ht
    refine ⟨⟨trivial, trivial⟩, fun _ hx hx' => ?_⟩
    obtain ⟨hit, cache, ha, -⟩ := Machine.touch_eq_ok.mp hx'
    exact h.not_access hc ho hhit hmiss hx ha
  elapse _ hc he := by
    cases he
    obtain ⟨hv, hcov⟩ := h.elapse hc
    exact ⟨⟨trivial, trivial⟩, hv, fun _ hx => hcov hx⟩
  join _ hs hu hj := by
    obtain ⟨hv, hcov⟩ := h.join hs hu (Action.ofFault_eq_ok.mp hj).1
    exact ⟨⟨trivial, trivial⟩, hv, fun _ hx => hcov (.inl hx), fun _ hx => hcov (.inr hx)⟩
  widen _ hs hu hj := by
    obtain ⟨hv, hcov⟩ := h.widen hs hu (Action.ofFault_eq_ok.mp hj).1
    exact ⟨⟨trivial, trivial⟩, hv, fun _ hx => hcov (.inl hx), fun _ hx => hcov (.inr hx)⟩
  subseteq _ _ _ hs := by
    refine ⟨⟨trivial, trivial⟩, ?_⟩
    rintro rfl _ _ _ hx
    exact h.subseteq (Action.ofFault_eq_ok.mp hs).1 hx

end CacheTiming.CacheOnly
