import CacheTiming.Cache.Ages
import CacheTiming.Proofs.Cache.Recency

/-! The abstract cache covers concrete caches.

An abstract cache covers a concrete one if the age of every block lies in the range that it has for the
block. An access changes the ranges block by block (`age_access`), in the same way for every order in
which the blocks are visited; whatever was covered before an access is covered by the outcome that the
concrete access has. Joins cover what either side covers, and inclusion is inclusion of what is
covered. -/

namespace CacheTiming

/-- A geometry that the analysis supports: nothing in it is zero, and ages fit a byte. -/
structure Geometry.Supported (g : Geometry) : Prop where
  lineSize : g.lineSize ≠ 0
  sets : g.sets ≠ 0
  ways : g.ways ≠ 0
  bytes : g.ways ≤ 255

namespace Geometry.Supported

variable {g : Geometry}

theorem ways_pos (h : g.Supported) : 0 < g.ways.toNat :=
  Nat.pos_of_ne_zero fun h0 => h.ways (UInt64.toNat_inj.mp h0)

theorem toNat_ways (h : g.Supported) : g.ways.toUInt8.toNat = g.ways.toNat := by
  have := UInt64.le_iff_toNat_le.mp h.bytes
  simp only [UInt64.toNat_toUInt8]
  exact Nat.mod_eq_of_lt (by simpa using Nat.lt_succ_of_le this)

theorem divides (h : g.Supported) : g.divides = true := by simp [Geometry.divides, h.lineSize, h.sets]

end Geometry.Supported

namespace AgeRange

/-- Whether an age lies in a range. -/
def Contains (r : AgeRange) (age : Nat) : Prop := r.lo.toNat ≤ age ∧ age ≤ r.hi.toNat

variable {r s : AgeRange} {a u : Nat}

theorem Contains.join_left (h : r.Contains a) (s : AgeRange) : (r.join s).Contains a := by
  unfold Contains join at *
  simp only [UInt8.lt_iff_toNat_lt]
  split <;> split <;> omega

theorem Contains.join_right (h : s.Contains a) (r : AgeRange) : (r.join s).Contains a := by
  unfold Contains join at *
  simp only [UInt8.lt_iff_toNat_lt]
  split <;> split <;> omega

theorem Contains.of_within (h : r.Contains a) (hw : r.within s = true) : s.Contains a := by
  unfold Contains within at *
  simp only [Bool.and_eq_true, decide_eq_true_eq, UInt8.le_iff_toNat_le] at hw
  omega

theorem hi_join_le {bound : UInt8} (hr : r.hi ≤ bound) (hs : s.hi ≤ bound) : (r.join s).hi ≤ bound := by
  unfold join
  dsimp only
  split
  · exact hs
  · exact hr

theorem hi_capped_le (r : AgeRange) (evicted : UInt8) : (r.capped evicted).hi ≤ evicted := by
  unfold capped
  simp only [UInt8.lt_iff_toNat_lt, UInt8.le_iff_toNat_le]
  split <;> omega

theorem hi_aged_le (r used : AgeRange) (evicted : UInt8) : (r.aged used evicted).hi ≤ evicted := by
  unfold aged
  split
  · exact hi_capped_le _ _
  · split <;> exact hi_capped_le _ _

theorem Contains.capped {evicted : UInt8} (h : r.Contains a) (ha : a ≤ evicted.toNat) :
    (r.capped evicted).Contains a := by
  unfold Contains AgeRange.capped at *
  simp only [UInt8.lt_iff_toNat_lt]
  split <;> split <;> omega

/-- The range of a block after an access to another block of its set. -/
theorem Contains.aged {used : AgeRange} {evicted : UInt8} (hr : r.Contains a) (hu : used.Contains u)
    (ha : a ≤ evicted.toNat) (hue : u ≤ evicted.toNat) :
    (r.aged used evicted).Contains (if a < u then a + 1 else a) := by
  have hev := evicted.toNat_lt
  unfold Contains at hr hu
  unfold AgeRange.aged
  simp only [UInt8.lt_iff_toNat_lt]
  split
  · -- surely younger: both ends move
    rw [if_pos (by omega)]
    refine Contains.capped ?_ (by omega)
    simp only [Contains, UInt8.toNat_add, UInt8.toNat_one]
    omega
  · split
    · -- possibly younger: the upper end moves
      refine Contains.capped ?_ (by split <;> omega)
      simp only [Contains, UInt8.toNat_add, UInt8.toNat_one]
      split <;> omega
    · -- not younger, or as old as a block can be
      rename_i hnot
      refine Contains.capped ?_ (by split <;> omega)
      unfold Contains
      split <;> omega

end AgeRange

namespace AgeCache

variable {c d : AgeCache} {used block x : UInt64} {r : AgeRange}

/-! ### Ranges block by block -/

@[simp] theorem evicted_setAge (c : AgeCache) (block : UInt64) (r : AgeRange) :
    (c.setAge block r).evicted = c.evicted := rfl

theorem age_of_not_mem (h : x ∉ c.ages) : c.age x = c.default := by
  rw [age, Std.ExtTreeMap.getElem?_eq_none h, Option.getD_none]

@[simp] theorem age_setAge (c : AgeCache) (block : UInt64) (r : AgeRange) (x : UInt64) :
    (c.setAge block r).age x = if x = block then r else c.age x := by
  unfold age setAge
  by_cases hx : x = block
  · subst hx
    by_cases hr : r = c.default
    · simp [hr]
    · simp [hr]
  · by_cases hr : r = c.default
    · simp [hr, hx, Std.ExtTreeMap.getElem?_erase, Ne.symm hx]
    · simp [hr, hx, Std.ExtTreeMap.getElem?_insert, Ne.symm hx]

theorem mem_setAge_of_ne (hx : x ≠ block) : x ∈ (c.setAge block r).ages ↔ x ∈ c.ages := by
  unfold setAge
  split
  · simp [Std.ExtTreeMap.mem_erase, Ne.symm hx]
  · simp [Std.ExtTreeMap.mem_insert, Ne.symm hx]

/-- A block that an access to the block `used` may age: another one of its set that has an entry and may
    be cached. -/
structure Exposed (c : AgeCache) (used block : UInt64) : Prop where
  tracked : block ∈ c.ages
  other : block ≠ used
  sameSet : c.geometry.setOf block = c.geometry.setOf used
  cached : (c.age block).lo ≠ c.evicted

instance (c : AgeCache) (used block : UInt64) : Decidable (c.Exposed used block) :=
  decidable_of_iff
    (block ∈ c.ages ∧ block ≠ used ∧ c.geometry.setOf block = c.geometry.setOf used ∧ (c.age block).lo ≠ c.evicted)
    ⟨fun ⟨h₁, h₂, h₃, h₄⟩ => ⟨h₁, h₂, h₃, h₄⟩, fun ⟨h₁, h₂, h₃, h₄⟩ => ⟨h₁, h₂, h₃, h₄⟩⟩

theorem exposed_setAge (hx : x ≠ block) : (c.setAge block r).Exposed used x ↔ c.Exposed used x := by
  constructor
  · rintro ⟨h₁, h₂, h₃, h₄⟩
    exact ⟨(mem_setAge_of_ne hx).mp h₁, h₂, h₃, by simpa [hx] using h₄⟩
  · rintro ⟨h₁, h₂, h₃, h₄⟩
    exact ⟨(mem_setAge_of_ne hx).mpr h₁, h₂, h₃, by simpa [hx] using h₄⟩

theorem ageBlock_eq (used : UInt64) (r : AgeRange) (c : AgeCache) (block : UInt64) :
    ageBlock used r c block =
      if c.Exposed used block then c.setAge block ((c.age block).aged r c.evicted) else c := by
  unfold ageBlock
  split
  · rename_i hn
    rw [if_neg]
    intro h
    have := Std.ExtTreeMap.mem_iff_isSome_getElem?.mp h.tracked
    simp [hn] at this
  · rename_i s hs
    have hage : c.age block = s := by rw [age, hs, Option.getD_some]
    have hmem : block ∈ c.ages := Std.ExtTreeMap.mem_iff_isSome_getElem?.mpr (by simp [hs])
    by_cases h : c.Exposed used block
    · rw [if_pos h, if_neg, hage]
      rintro (h' | h' | h')
      · exact h.other h'
      · exact h' h.sameSet
      · exact h.cached (hage ▸ h')
    · rw [if_neg h, if_pos]
      by_contra h'
      simp only [not_or, ne_eq, not_not] at h'
      exact h ⟨hmem, h'.1, h'.2.1, hage ▸ h'.2.2⟩

/-- Ageing the blocks of a list, each once and in any order, ages the exposed ones among them. -/
theorem foldl_ageBlock (used : UInt64) (r : AgeRange) :
    ∀ {blocks : List UInt64}, blocks.Nodup → ∀ c : AgeCache,
      (blocks.foldl (ageBlock used r) c).geometry = c.geometry ∧
      (blocks.foldl (ageBlock used r) c).default = c.default ∧
      ∀ x, (blocks.foldl (ageBlock used r) c).age x =
        if x ∈ blocks ∧ c.Exposed used x then (c.age x).aged r c.evicted else c.age x
  | [], _, c => by simp
  | b :: blocks, hnd, c => by
    obtain ⟨hb, hnd⟩ := List.nodup_cons.mp hnd
    rw [List.foldl_cons, ageBlock_eq]
    by_cases he : c.Exposed used b
    · rw [if_pos he]
      obtain ⟨hg, hd, hage⟩ := foldl_ageBlock used r hnd (c.setAge b ((c.age b).aged r c.evicted))
      refine ⟨hg, hd, fun x => ?_⟩
      rw [hage x]
      by_cases hx : x = b
      · subst hx
        simp [hb, he]
      · simp [hx, exposed_setAge hx]
    · rw [if_neg he]
      obtain ⟨hg, hd, hage⟩ := foldl_ageBlock used r hnd c
      refine ⟨hg, hd, fun x => ?_⟩
      rw [hage x]
      by_cases hx : x = b
      · subst hx
        simp [he]
      · simp [hx]

@[simp] theorem geometry_access (c : AgeCache) (block : UInt64) (r : AgeRange) :
    (c.access block r).geometry = c.geometry :=
  (foldl_ageBlock block r Std.ExtTreeMap.nodup_keys c).1

@[simp] theorem default_access (c : AgeCache) (block : UInt64) (r : AgeRange) :
    (c.access block r).default = c.default :=
  (foldl_ageBlock block r Std.ExtTreeMap.nodup_keys c).2.1

/-- An access gives its block the age zero and ages the exposed blocks. -/
theorem age_access (c : AgeCache) (block : UInt64) (r : AgeRange) (x : UInt64) :
    (c.access block r).age x =
      if x = block then { lo := 0, hi := 0 }
      else if c.Exposed block x then (c.age x).aged r c.evicted
      else c.age x := by
  rw [access, age_setAge, (foldl_ageBlock block r Std.ExtTreeMap.nodup_keys c).2.2 x]
  have hkeys : x ∈ c.ages.keys ∧ c.Exposed block x ↔ c.Exposed block x :=
    ⟨And.right, fun h => ⟨Std.ExtTreeMap.mem_keys.mpr h.tracked, h⟩⟩
  simp only [hkeys]

theorem foldl_setAge (range : UInt64 → AgeRange) :
    ∀ (blocks : List UInt64) (c : AgeCache),
      (blocks.foldl (fun e b => e.setAge b (range b)) c).geometry = c.geometry ∧
      (blocks.foldl (fun e b => e.setAge b (range b)) c).default = c.default ∧
      ∀ x, (blocks.foldl (fun e b => e.setAge b (range b)) c).age x = if x ∈ blocks then range x else c.age x
  | [], c => by simp
  | b :: blocks, c => by
    obtain ⟨hg, hd, hage⟩ := foldl_setAge range blocks (c.setAge b (range b))
    refine ⟨hg, hd, fun x => ?_⟩
    rw [List.foldl_cons, hage x, age_setAge]
    by_cases hm : x ∈ blocks
    · simp [hm]
    · by_cases hx : x = b
      · simp [hx]
      · simp [hm, hx]

@[simp] theorem geometry_join (c d : AgeCache) : (c.join d).geometry = c.geometry :=
  (foldl_setAge (fun b => (c.age b).join (d.age b)) (c.ages.keys ++ d.ages.keys) _).1

@[simp] theorem default_join (c d : AgeCache) : (c.join d).default = c.default.join d.default :=
  (foldl_setAge (fun b => (c.age b).join (d.age b)) (c.ages.keys ++ d.ages.keys) _).2.1

/-- The join of two caches joins the ranges of every block, whether it has an entry or not. -/
theorem age_join (c d : AgeCache) (x : UInt64) : (c.join d).age x = (c.age x).join (d.age x) := by
  have h := (foldl_setAge (fun b => (c.age b).join (d.age b)) (c.ages.keys ++ d.ages.keys)
    { geometry := c.geometry, default := c.default.join d.default, ages := ∅ }).2.2 x
  rw [join, h]
  split
  · rfl
  · rename_i hx
    have hc : x ∉ c.ages := fun hm => hx (List.mem_append_left _ (Std.ExtTreeMap.mem_keys.mpr hm))
    have hd : x ∉ d.ages := fun hm => hx (List.mem_append_right _ (Std.ExtTreeMap.mem_keys.mpr hm))
    rw [age_of_not_mem hc, age_of_not_mem hd, age_of_not_mem Std.ExtTreeMap.not_mem_empty]

/-- Inclusion compares the ranges of every block, whether it has an entry or not. -/
theorem within_of_subseteq (h : c.subseteq d = true) (x : UInt64) : (c.age x).within (d.age x) = true := by
  simp only [subseteq, Bool.and_eq_true, List.all_eq_true] at h
  by_cases hx : x ∈ c.ages.keys ++ d.ages.keys
  · exact h.2 x hx
  · have hc : x ∉ c.ages := fun hm => hx (List.mem_append_left _ (Std.ExtTreeMap.mem_keys.mpr hm))
    have hd : x ∉ d.ages := fun hm => hx (List.mem_append_right _ (Std.ExtTreeMap.mem_keys.mpr hm))
    rw [age_of_not_mem hc, age_of_not_mem hd]
    exact h.1

/-! ### Valid caches -/

/-- What every abstract cache of an analysis satisfies: it has the geometry of the analysis, blocks
    without an entry are all evicted or all unknown, and no range goes beyond the evicted age. -/
structure Valid (g : Geometry) (c : AgeCache) : Prop where
  geometry : c.geometry = g
  hi_default : c.default.hi = c.evicted
  lo_default : c.default.lo = c.evicted ∨ c.default.lo = 0
  hi_le : ∀ block, (c.age block).hi ≤ c.evicted

variable {g : Geometry}

theorem valid_initial (params : CacheParams) : (initial params).Valid params.geometry where
  geometry := rfl
  hi_default := rfl
  lo_default := by
    unfold initial
    dsimp only
    split
    · exact Or.inl rfl
    · exact Or.inr rfl
  hi_le block := by
    rw [age_of_not_mem Std.ExtTreeMap.not_mem_empty]
    exact UInt8.le_refl _

theorem evicted_access (c : AgeCache) (block : UInt64) (r : AgeRange) :
    (c.access block r).evicted = c.evicted := by simp [evicted]

theorem Valid.access (h : c.Valid g) (block : UInt64) (r : AgeRange) : (c.access block r).Valid g where
  geometry := by rw [geometry_access, h.geometry]
  hi_default := by rw [default_access, evicted_access, h.hi_default]
  lo_default := by
    rw [default_access, evicted_access]
    exact h.lo_default
  hi_le x := by
    rw [age_access, evicted_access]
    split
    · exact UInt8.zero_le
    · split
      · exact AgeRange.hi_aged_le _ _ _
      · exact h.hi_le x

theorem Valid.join (hc : c.Valid g) (hd : d.Valid g) : (c.join d).Valid g := by
  have hev : d.evicted = c.evicted := by rw [evicted, evicted, hc.geometry, hd.geometry]
  have hev' : (c.join d).evicted = c.evicted := by rw [evicted, geometry_join, evicted]
  constructor
  · rw [geometry_join, hc.geometry]
  · rw [default_join, hev', AgeRange.join]
    simp [hc.hi_default, hd.hi_default, hev]
  · rw [default_join, hev', AgeRange.join]
    dsimp only
    split
    · rw [← hev]
      exact hd.lo_default
    · exact hc.lo_default
  · intro x
    rw [age_join, hev']
    exact AgeRange.hi_join_le (hc.hi_le x) (hev ▸ hd.hi_le x)

theorem Valid.touch_hit (h : c.Valid g) {block : UInt64} {c' : AgeCache} (ht : (c.touch block).hit = some c') :
    c'.Valid g := by
  simp only [touch] at ht
  split at ht
  · cases ht
    exact h.access _ _
  · cases ht

theorem Valid.touch_miss (h : c.Valid g) {block : UInt64} {c' : AgeCache} (ht : (c.touch block).miss = some c') :
    c'.Valid g := by
  simp only [touch] at ht
  split at ht
  · cases ht
    exact h.access _ _
  · cases ht

/-! ### Covered caches -/

/-- The ages of all blocks of a concrete cache lie in the ranges of the abstract one. -/
def Covers (c : AgeCache) (k : RecencyCache) : Prop := ∀ block, (c.age block).Contains (k.age block)

variable {k : RecencyCache}

theorem Covers.join_left (h : c.Covers k) (d : AgeCache) : (c.join d).Covers k := fun x => by
  rw [age_join]
  exact (h x).join_left _

theorem Covers.join_right (h : d.Covers k) (c : AgeCache) : (c.join d).Covers k := fun x => by
  rw [age_join]
  exact (h x).join_right _

theorem Covers.of_subseteq (h : c.Covers k) (hs : c.subseteq d = true) : d.Covers k := fun x =>
  (h x).of_within (within_of_subseteq hs x)

/-- The abstract cache at the start covers a cache without blocks, and any cache if nothing is known. -/
theorem covers_initial {params : CacheParams} (hg : params.geometry.Supported) (hk : k.WellFormed)
    (hkg : k.geometry = params.geometry)
    (hempty : params.initiallyEmpty = true → ∀ set, k.blocks set = []) : (initial params).Covers k := by
  intro x
  have hle := hk.age_le x
  rw [hkg] at hle
  rw [age_of_not_mem Std.ExtTreeMap.not_mem_empty]
  refine ⟨?_, hg.toNat_ways.symm ▸ hle⟩
  simp only [initial]
  split
  · rename_i h
    have hage : k.age x = params.geometry.ways.toNat := by
      rw [RecencyCache.age, hempty h, RecencyCache.position_of_not_mem List.not_mem_nil, hkg]
    exact Nat.le_of_eq (hg.toNat_ways.trans hage.symm)
  · exact Nat.zero_le _

theorem toNat_evicted (hg : g.Supported) (hc : c.Valid g) (hkg : k.geometry = g) :
    c.evicted.toNat = k.geometry.ways.toNat := by
  rw [evicted, hc.geometry, hkg, hg.toNat_ways]

section Access
variable (hg : g.Supported) (hc : c.Valid g) (hk : k.WellFormed) (hkg : k.geometry = g)
include hg hc hk hkg

/-- An access to a block whose age is in the given range covers the concrete access. -/
theorem Covers.access (h : c.Covers k) {block : UInt64} {r : AgeRange} (hr : r.Contains (k.age block)) :
    (c.access block r).Covers (k.use block) := by
  intro x
  have hev := toNat_evicted hg hc hkg
  have hle := hk.age_le x
  have hle' := hk.age_le block
  have hx := h x
  rw [age_access, RecencyCache.age_use hk (hkg ▸ hg.ways_pos)]
  by_cases hxb : x = block
  · rw [if_pos hxb, if_pos hxb]
    exact ⟨Nat.le_refl _, Nat.le_refl _⟩
  · rw [if_neg hxb, if_neg hxb]
    by_cases he : c.Exposed block x
    · rw [if_pos he]
      have hset : k.geometry.setOf x = k.geometry.setOf block := by
        have := he.sameSet
        rwa [hc.geometry, ← hkg] at this
      simp only [hset, true_and]
      exact hx.aged hr (by omega) (by omega)
    · rw [if_neg he]
      split
      · rename_i hyounger
        -- a cached block of the set that is not exposed has no entry, and then nothing is known of it
        have hmem : x ∉ c.ages := fun hm => by
          refine he ⟨hm, hxb, by rw [hc.geometry, ← hkg]; exact hyounger.1, fun hlo => ?_⟩
          have := hx.1
          rw [hlo] at this
          omega
        rw [age_of_not_mem hmem] at hx ⊢
        unfold AgeRange.Contains at *
        rcases hc.lo_default with hlo | hlo
        · rw [hlo] at hx
          omega
        · rw [hlo, hc.hi_default, hev]
          exact ⟨Nat.zero_le _, by omega⟩
      · exact hx

/-- If the concrete access hits, the hit is possible and covers it. -/
theorem Covers.touch_hit (h : c.Covers k) {block : UInt64} (hh : k.holds block = true) :
    ∃ c', (c.touch block).hit = some c' ∧ c'.Covers (k.use block) := by
  have hev := toNat_evicted hg hc hkg
  have hlt := (RecencyCache.holds_iff hk block).mp hh
  obtain ⟨hlo, hhi⟩ := h block
  have hpos : (c.age block).lo < c.evicted := UInt8.lt_iff_toNat_lt.mpr (by omega)
  refine ⟨_, if_pos hpos, h.access hg hc hk hkg ?_⟩
  split
  · rename_i heq
    refine ⟨hlo, ?_⟩
    have hone : (1 : UInt8) ≤ c.evicted := UInt8.le_iff_toNat_le.mpr (by simp; omega)
    rw [UInt8.toNat_sub_of_le _ _ hone, hev]
    simp only [UInt8.toNat_one]
    omega
  · exact ⟨hlo, hhi⟩

/-- If the concrete access misses, the miss is possible and covers it. -/
theorem Covers.touch_miss (h : c.Covers k) {block : UInt64} (hh : k.holds block = false) :
    ∃ c', (c.touch block).miss = some c' ∧ c'.Covers (k.use block) := by
  have hev := toNat_evicted hg hc hkg
  have hage : k.age block = k.geometry.ways.toNat := by
    have hle := hk.age_le block
    have hnot : ¬ k.age block < k.geometry.ways.toNat := fun hlt => by
      rw [(RecencyCache.holds_iff hk block).mpr hlt] at hh
      cases hh
    omega
  have hhi : (c.age block).hi = c.evicted := by
    have h₁ := UInt8.le_iff_toNat_le.mp (hc.hi_le block)
    have h₂ := (h block).2
    exact UInt8.toNat_inj.mp (by omega)
  refine ⟨_, if_pos hhi, h.access hg hc hk hkg ?_⟩
  rw [hage, ← hev]
  exact ⟨Nat.le_refl _, Nat.le_refl _⟩

end Access

end AgeCache

end CacheTiming
