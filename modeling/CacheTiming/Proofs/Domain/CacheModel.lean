import CacheTiming.Proofs.Cache.Coverage
import CacheTiming.Proofs.Trace.Observation

/-! Sound models of caches.

What a domain needs from its cache: the outcomes of an access cover what concrete caches do, joins and
widenings cover both sides, and a cache that includes another covers what that one covers. The
abstract cache with ages is such a model for every geometry that an analysis supports. -/

namespace CacheTiming

variable {χ : Type}

namespace Outcomes

/-- The cache after an access of which it is known whether it hits. -/
def after (o : Outcomes χ) (hit : Bool) : Option χ := if hit then o.hit else o.miss

/-- The status and the cache that a domain goes on with after an access. -/
inductive Resolved [CacheModel χ] (o : Outcomes χ) : Status → χ → Prop where
  | hit {c : χ} (hit : o.hit = some c) (miss : o.miss = none) : Resolved o .hit c
  | miss {c : χ} (hit : o.hit = none) (miss : o.miss = some c) : Resolved o .miss c
  | both {c d e : χ} (hit : o.hit = some c) (miss : o.miss = some d) (join : CacheModel.join c d = .ok e) :
      Resolved o .hitOrMiss e

end Outcomes

/-- A merge of two valid caches covers what either of them covers. -/
def CacheModel.Merges (Valid : χ → Prop) (Covers : χ → RecencyCache → Prop) (merge : χ → χ → Except Fault χ) : Prop :=
  ∀ ⦃c d e⦄, Valid c → Valid d → merge c d = .ok e → Valid e ∧ ∀ {k}, Covers c k ∨ Covers d k → Covers e k

/-- Caches that satisfy `Valid` cover concrete ones as `Covers` says, whatever is done with both. -/
structure CacheModel.Sound [CacheModel χ] (Valid : χ → Prop) (Covers : χ → RecencyCache → Prop) : Prop where
  touch : ∀ {c address o}, Valid c → CacheModel.touch c address = .ok o →
    (∀ hit {c'}, o.after hit = some c' → Valid c') ∧
      ∀ {k hit k'}, Covers c k → k.access address = .ok (hit, k') → ∃ c', o.after hit = some c' ∧ Covers c' k'
  elapse : ∀ {c time}, Valid c →
    Valid (CacheModel.elapse c time) ∧ ∀ {k}, Covers c k → Covers (CacheModel.elapse c time) k
  join : Merges Valid Covers CacheModel.join
  widen : Merges Valid Covers CacheModel.widen
  subseteq : ∀ {c d k}, CacheModel.subseteq c d = .ok true → Covers c k → Covers d k

namespace CacheModel.Sound

variable [CacheModel χ] {Valid : χ → Prop} {Covers : χ → RecencyCache → Prop} (h : CacheModel.Sound Valid Covers)
  {o : Outcomes χ} {status : Status} {c c' : χ} {address : UInt64}
include h

theorem valid_resolved (hc : Valid c) (ht : CacheModel.touch c address = .ok o) (hr : o.Resolved status c') :
    Valid c' := by
  obtain ⟨hv, -⟩ := h.touch hc ht
  cases hr with
  | hit hhit hmiss => exact hv true hhit
  | miss hhit hmiss => exact hv false hmiss
  | both hhit hmiss hjoin => exact (h.join (hv true hhit) (hv false hmiss) hjoin).1

/-- The cache that a domain goes on with covers the concrete access, and its status allows what that
    shows. -/
theorem covers_resolved (hc : Valid c) (ht : CacheModel.touch c address = .ok o) (hr : o.Resolved status c')
    {k k' : RecencyCache} {hit : Bool} (hk : Covers c k) (ha : k.access address = .ok (hit, k')) :
    Covers c' k' ∧ Observation.ofAccess hit ∈ status.observations := by
  obtain ⟨hv, hcov⟩ := h.touch hc ht
  obtain ⟨d, hd, hk'⟩ := hcov hk ha
  cases hr with
  | hit hhit hmiss =>
    cases hit with
    | true =>
      have heq : some c' = some d := hhit.symm.trans hd
      cases heq
      exact ⟨hk', List.mem_singleton.mpr rfl⟩
    | false => exact absurd (hmiss.symm.trans hd) nofun
  | miss hhit hmiss =>
    cases hit with
    | true => exact absurd (hhit.symm.trans hd) nofun
    | false =>
      have heq : some c' = some d := hmiss.symm.trans hd
      cases heq
      exact ⟨hk', List.mem_singleton.mpr rfl⟩
  | both hhit hmiss hjoin =>
    obtain ⟨-, hj⟩ := h.join (hv true hhit) (hv false hmiss) hjoin
    cases hit with
    | true =>
      have heq := hhit.symm.trans hd
      cases heq
      exact ⟨hj (Or.inl hk'), List.mem_cons_self⟩
    | false =>
      have heq := hmiss.symm.trans hd
      cases heq
      exact ⟨hj (Or.inr hk'), List.mem_cons_of_mem _ List.mem_cons_self⟩

/-- An access without outcomes covers no concrete access. -/
theorem not_access (hc : Valid c) (ht : CacheModel.touch c address = .ok o) (hhit : o.hit = none)
    (hmiss : o.miss = none) {k k' : RecencyCache} {hit : Bool} (hk : Covers c k) :
    k.access address ≠ .ok (hit, k') := by
  intro ha
  obtain ⟨d, hd, -⟩ := (h.touch hc ht).2 hk ha
  cases hit with
  | true => exact absurd (hhit.symm.trans hd) nofun
  | false => exact absurd (hmiss.symm.trans hd) nofun

end CacheModel.Sound

/-! ### The abstract cache with ages -/

/-- A concrete cache of a geometry that an abstract one covers. -/
structure AgeCache.Represents (g : Geometry) (c : AgeCache) (k : RecencyCache) : Prop where
  wellFormed : k.WellFormed
  geometry : k.geometry = g
  covers : c.Covers k

/-- Ages are joined block by block, also at the heads of loops. -/
theorem AgeCache.merges_join (g : Geometry) :
    CacheModel.Merges (fun c : AgeCache => c.Valid g) (Represents g) fun c d => .ok (c.join d) := by
  intro c d e hc hd hj
  cases hj
  refine ⟨hc.join hd, fun hk => ?_⟩
  rcases hk with hk | hk
  · exact ⟨hk.wellFormed, hk.geometry, hk.covers.join_left d⟩
  · exact ⟨hk.wellFormed, hk.geometry, hk.covers.join_right c⟩

/-- An access does not fail if the geometry is supported. -/
theorem AgeCache.Valid.touch_eq {g : Geometry} {c : AgeCache} (hc : c.Valid g) (hg : g.Supported) (address : UInt64) :
    CacheModel.touch c address = .ok (c.touch (c.geometry.block address)) := by
  show touchAddress c address = _
  rw [touchAddress, hc.geometry, if_neg hg.lineSize, if_neg fun h => hg.sets h.1]

theorem AgeCache.sound {g : Geometry} (hg : g.Supported) :
    CacheModel.Sound (fun c : AgeCache => c.Valid g) (AgeCache.Represents g) where
  touch {c address o} hc ht := by
    cases (hc.touch_eq hg address).symm.trans ht
    refine ⟨fun hit {c'} h => ?_, fun {k hit k'} hk ha => ?_⟩
    · cases hit with
      | true => exact hc.touch_hit h
      | false => exact hc.touch_miss h
    · obtain ⟨hw, hkg, hcov⟩ := hk
      unfold RecencyCache.access at ha
      rw [hkg, if_pos hg.divides, ← hc.geometry] at ha
      cases ha
      cases hh : k.holds (c.geometry.block address) with
      | true =>
        obtain ⟨c', h₁, h₂⟩ := hcov.touch_hit hg hc hw hkg hh
        exact ⟨c', h₁, hw.use _, hkg, h₂⟩
      | false =>
        obtain ⟨c', h₁, h₂⟩ := hcov.touch_miss hg hc hw hkg hh
        exact ⟨c', h₁, hw.use _, hkg, h₂⟩
  elapse hc := ⟨hc, id⟩
  join := merges_join g
  widen := merges_join g
  subseteq {c d k} hs hk := by
    have hs : (.ok (c.subseteq d) : Except Fault Bool) = .ok true := hs
    injection hs with hs
    exact ⟨hk.wellFormed, hk.geometry, hk.covers.of_subseteq hs⟩

end CacheTiming
