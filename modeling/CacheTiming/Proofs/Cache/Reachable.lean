import CacheTiming.Proofs.Domain.CacheModel

/-! Abstract caches that an analysis can come to.

They start with nothing or with everything in the cache, and go on by accesses, whatever their outcome,
by passing time, and by joining and widening. All of them are valid, so what they cover stays covered
when concrete caches are accessed. -/

namespace CacheTiming

namespace AgeCache

/-- The abstract caches of a geometry that the operations lead to. -/
inductive Reachable (g : Geometry) : AgeCache → Prop where
  | initial (initiallyEmpty : Bool) : Reachable g (initial { geometry := g, initiallyEmpty })
  | touch {c c' : AgeCache} {address : UInt64} {o : Outcomes AgeCache} {hit : Bool} (before : Reachable g c)
      (access : CacheModel.touch c address = .ok o) (outcome : o.after hit = some c') : Reachable g c'
  | elapse {c : AgeCache} (time : UInt64) (before : Reachable g c) : Reachable g (CacheModel.elapse c time)
  | join {c d e : AgeCache} (left : Reachable g c) (right : Reachable g d) (run : CacheModel.join c d = .ok e) :
      Reachable g e
  | widen {c d e : AgeCache} (left : Reachable g c) (right : Reachable g d) (run : CacheModel.widen c d = .ok e) :
      Reachable g e

variable {g : Geometry} {c : AgeCache}

theorem Reachable.valid (hg : g.Supported) (h : c.Reachable g) : c.Valid g := by
  have hsound := sound hg
  induction h with
  | initial initiallyEmpty => exact valid_initial { geometry := g, initiallyEmpty }
  | touch _ access outcome ih => exact (hsound.touch ih access).1 _ outcome
  | elapse _ _ ih => exact (hsound.elapse ih).1
  | join _ _ run ihc ihd => exact (hsound.join ihc ihd run).1
  | widen _ _ run ihc ihd => exact (hsound.widen ihc ihd run).1

/-- Whatever a concrete access does, the abstract one has this outcome, and covers the cache after it. Joins and
    widenings cover what either side covers, and a cache that includes another covers what that one covers. -/
theorem reachable_cache_sound (hg : g.Supported) (hc : c.Reachable g) :
    (∀ k : RecencyCache, k.WellFormed → k.geometry = g → c.Covers k → ∀ address, ∃ hit k' o c',
      k.access address = .ok (hit, k') ∧ CacheModel.touch c address = .ok o ∧
        (if hit then o.hit else o.miss) = some c' ∧ c'.Covers k') ∧
    ∀ d : AgeCache, d.Reachable g →
      (∃ e, CacheModel.join c d = .ok e ∧ ∀ k, c.Covers k ∨ d.Covers k → e.Covers k) ∧
      (∃ e, CacheModel.widen c d = .ok e ∧ ∀ k, c.Covers k ∨ d.Covers k → e.Covers k) ∧
      (CacheModel.subseteq c d = .ok true → ∀ k, c.Covers k → d.Covers k) := by
  have hvalid := hc.valid hg
  constructor
  · intro k hk hkg hcov address
    have haccess : k.access address = .ok _ := if_pos (hkg ▸ hg.divides)
    have htouch := hvalid.touch_eq hg address
    obtain ⟨c', houtcome, hrep⟩ := ((sound hg).touch hvalid htouch).2 ⟨hk, hkg, hcov⟩ haccess
    exact ⟨_, _, _, c', haccess, htouch, houtcome, hrep.covers⟩
  · intro d hd
    have hjoin : ∀ k, c.Covers k ∨ d.Covers k → (c.join d).Covers k := by
      rintro k (hcov | hcov)
      · exact hcov.join_left d
      · exact hcov.join_right c
    refine ⟨⟨_, rfl, hjoin⟩, ⟨_, rfl, hjoin⟩, fun hsub k hcov => ?_⟩
    injection hsub with hsub
    exact hcov.of_subseteq hsub

end AgeCache

/-- A single set of two lines. -/
def Geometry.pair : Geometry := { lineSize := 64, sets := 1, ways := 2 }

/-- A cache of which nothing is known covers one that holds block 7. After accesses to blocks 5 and 0 it covers
    the cache from which block 7 was evicted. -/
theorem AgeCache.eviction_covered :
    ∃ (c c' : AgeCache) (k k' : RecencyCache) (o : Outcomes AgeCache), c.Reachable .pair ∧ c.Covers k ∧
      k.holds 7 = true ∧ k.access 0 = .ok (false, k') ∧ k'.holds 7 = false ∧ CacheModel.touch c 0 = .ok o ∧
      o.miss = some c' ∧ c'.Covers k' := by
  have hg : Geometry.pair.Supported := ⟨by decide, by decide, by decide, by decide⟩
  have hc : (initial { geometry := .pair, initiallyEmpty := false }).Reachable .pair := .initial false
  have hk := (RecencyCache.wellFormed_empty .pair).use 7
  have hcov : (initial { geometry := .pair, initiallyEmpty := false }).Covers _ := covers_initial hg hk rfl (by simp)
  obtain ⟨_, _, o, c, haccess, htouch, houtcome, hcov⟩ := (reachable_cache_sound hg hc).1 _ hk rfl hcov 320
  cases haccess
  have hc := hc.touch htouch houtcome
  have hk := hk.use (Geometry.pair.block 320)
  obtain ⟨_, _, o', c', haccess, htouch', houtcome', hcov'⟩ := (reachable_cache_sound hg hc).1 _ hk rfl hcov 0
  cases haccess
  exact ⟨c, c', _, _, o', hc, hcov, by decide +kernel, rfl, by decide +kernel, htouch', houtcome', hcov'⟩

end CacheTiming
