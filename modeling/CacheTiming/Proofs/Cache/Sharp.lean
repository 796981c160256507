import CacheTiming.Proofs.Cache.Coverage

/-! Abstract caches that know every age.

An access to a block whose age is known either hits or misses, and all ages are known after it. So a
cache that is empty at first stays known as long as nothing is joined. -/

namespace CacheTiming

/-- A range that holds one age only. -/
def AgeRange.Sharp (r : AgeRange) : Prop := r.lo = r.hi

namespace AgeRange

variable {r used : AgeRange} {evicted : UInt8}

theorem Sharp.capped (h : r.Sharp) : (r.capped evicted).Sharp := by
  have h : r.lo = r.hi := h
  simp only [Sharp, AgeRange.capped, h]

theorem Sharp.aged (hr : r.Sharp) (hu : used.Sharp) : (r.aged used evicted).Sharp := by
  have hr : r.lo = r.hi := hr
  have hu : used.lo = used.hi := hu
  unfold AgeRange.aged
  split
  · exact Sharp.capped (congrArg (· + 1) hr)
  · rename_i hnot
    -- The second case of ageing is for blocks that may or may not be younger than the used one.
    rw [if_neg fun h => hnot (hr ▸ hu ▸ h.1)]
    exact Sharp.capped hr

theorem Sharp.eq_of_contains {age : Nat} (h : r.Sharp) (ha : r.Contains age) : r.lo.toNat = age ∧ r.hi.toNat = age := by
  have h : r.lo = r.hi := h
  unfold Contains at ha
  rw [h] at ha ⊢
  omega

end AgeRange

namespace AgeCache

/-- A cache in which every age is known. -/
def Sharp (c : AgeCache) : Prop := ∀ block, (c.age block).Sharp

variable {c c' : AgeCache} {g : Geometry} {block : UInt64} {r : AgeRange}

theorem sharp_initial {params : CacheParams} (h : params.initiallyEmpty = true) : (initial params).Sharp := by
  intro block
  rw [age_of_not_mem Std.ExtTreeMap.not_mem_empty]
  simp [initial, AgeRange.Sharp, h]

theorem Sharp.access (hc : c.Sharp) (hr : r.Sharp) : (c.access block r).Sharp := by
  intro x
  rw [age_access]
  split
  · rfl
  split
  · exact (hc x).aged hr
  · exact hc x

theorem Sharp.touch_hit (hc : c.Sharp) (h : (c.touch block).hit = some c') :
    (c.touch block).miss = none ∧ c'.Sharp := by
  have hsharp : (c.age block).lo = (c.age block).hi := hc block
  simp only [touch] at h ⊢
  split at h
  · rename_i hlt
    have hne : (c.age block).hi ≠ c.evicted := UInt8.ne_of_lt (hsharp ▸ hlt)
    rw [if_neg hne] at h
    cases h
    exact ⟨if_neg hne, hc.access (hc block)⟩
  · cases h

theorem Sharp.touch_miss (hc : c.Sharp) (h : (c.touch block).miss = some c') :
    (c.touch block).hit = none ∧ c'.Sharp := by
  have hsharp : (c.age block).lo = (c.age block).hi := hc block
  simp only [touch] at h ⊢
  split at h
  · rename_i heq
    cases h
    refine ⟨if_neg fun hlt => ?_, hc.access rfl⟩
    exact absurd (hsharp.trans heq) (UInt8.ne_of_lt hlt)
  · cases h

end AgeCache

end CacheTiming
