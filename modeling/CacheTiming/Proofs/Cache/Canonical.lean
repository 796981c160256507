import CacheTiming.Proofs.Cache.Reachable
import CacheTiming.Proofs.Domain.CacheOnly
import CacheTiming.Proofs.Domain.Traced

/-! Abstract caches in canonical form.

All ranges of a canonical cache are proper: they are not empty and do not go beyond the evicted age. On
such ranges the arithmetic on bytes is exact, and no bound has to be cut off. No entry repeats the range
of the blocks without an entry, so a canonical cache is given by the ranges alone. All caches that an
analysis comes to are canonical, and every access to them has an outcome. -/

namespace CacheTiming

/-! ### Proper ranges -/

namespace AgeRange

/-- A range that holds an age, and no age beyond the evicted one. -/
structure Proper (r : AgeRange) (evicted : UInt8) : Prop where
  ordered : r.lo.toNat ≤ r.hi.toNat
  bounded : r.hi.toNat ≤ evicted.toNat

/-- The ends of a range as unbounded numbers. -/
def bounds (r : AgeRange) : Int × Int := (r.lo.toNat, r.hi.toNat)

/-- The ends of the ages of a block after an access to another block of its set, over unbounded numbers and
    without cutting anything off. -/
def grown (ways : Int) (r used : Int × Int) : Int × Int :=
  if r.2 < used.1 then (r.1 + 1, r.2 + 1)
  else if r.1 < used.2 ∧ r.2 < ways then (r.1, r.2 + 1)
  else r

variable {r s used : AgeRange} {evicted : UInt8}

theorem bounds_inj (h : r.bounds = s.bounds) : r = s := by
  obtain ⟨hlo, hhi⟩ := Prod.mk.inj h
  have hlo : r.lo = s.lo := UInt8.toNat_inj.mp (by omega)
  have hhi : r.hi = s.hi := UInt8.toNat_inj.mp (by omega)
  cases r
  cases s
  congr

theorem bounds_join (r s : AgeRange) :
    (r.join s).bounds = (min r.bounds.1 s.bounds.1, max r.bounds.2 s.bounds.2) := by
  unfold bounds join
  simp only [UInt8.lt_iff_toNat_lt]
  congr 1
  · split <;> omega
  · split <;> omega

theorem Proper.join (hr : r.Proper evicted) (hs : s.Proper evicted) : (r.join s).Proper evicted := by
  obtain ⟨hr₁, hr₂⟩ := hr
  obtain ⟨hs₁, hs₂⟩ := hs
  obtain ⟨hlo, hhi⟩ := Prod.mk.inj (bounds_join r s)
  unfold bounds at hlo hhi
  constructor <;> omega

theorem Proper.capped_eq (h : r.Proper evicted) : r.capped evicted = r := by
  obtain ⟨h₁, h₂⟩ := h
  unfold capped
  simp only [UInt8.lt_iff_toNat_lt]
  rw [if_neg (by omega), if_neg (by omega)]

theorem toNat_succ {n : UInt8} (h : n < evicted) : (n + 1).toNat = n.toNat + 1 := by
  have := evicted.toNat_lt
  have := UInt8.lt_iff_toNat_lt.mp h
  rw [UInt8.toNat_add, UInt8.toNat_one]
  omega

theorem toNat_pred {n : UInt8} (h : 0 < n.toNat) : (n - 1).toNat = n.toNat - 1 := by
  have hone : (1 : UInt8) ≤ n := by
    rw [UInt8.le_iff_toNat_le, UInt8.toNat_one]
    exact h
  rw [UInt8.toNat_sub_of_le _ _ hone, UInt8.toNat_one]

/-- Both ends of a range below the evicted age can move. -/
theorem Proper.older (hr : r.Proper evicted) (h : r.hi < evicted) :
    Proper { lo := r.lo + 1, hi := r.hi + 1 } evicted ∧
      bounds { lo := r.lo + 1, hi := r.hi + 1 } = (r.bounds.1 + 1, r.bounds.2 + 1) := by
  obtain ⟨hr₁, hr₂⟩ := hr
  have hlt := UInt8.lt_iff_toNat_lt.mp h
  have hlo : (r.lo + 1).toNat = r.lo.toNat + 1 := toNat_succ (UInt8.lt_iff_toNat_lt.mpr (Nat.lt_of_le_of_lt hr₁ hlt))
  have hhi := toNat_succ h
  have hordered : (r.lo + 1).toNat ≤ (r.hi + 1).toNat := by omega
  have hbounded : (r.hi + 1).toNat ≤ evicted.toNat := by omega
  exact ⟨⟨hordered, hbounded⟩, by simp [bounds, hlo, hhi]⟩

/-- The upper end of a range below the evicted age can move. -/
theorem Proper.wider (hr : r.Proper evicted) (h : r.hi < evicted) :
    Proper { r with hi := r.hi + 1 } evicted ∧ bounds { r with hi := r.hi + 1 } = (r.bounds.1, r.bounds.2 + 1) := by
  obtain ⟨hr₁, hr₂⟩ := hr
  have hlt := UInt8.lt_iff_toNat_lt.mp h
  have hhi := toNat_succ h
  have hordered : r.lo.toNat ≤ (r.hi + 1).toNat := by omega
  have hbounded : (r.hi + 1).toNat ≤ evicted.toNat := by omega
  exact ⟨⟨hordered, hbounded⟩, by simp [bounds, hhi]⟩

/-- Ageing keeps ranges proper, never wraps around, and never cuts anything off. -/
theorem Proper.aged (hr : r.Proper evicted) (hu : used.Proper evicted) :
    (r.aged used evicted).Proper evicted ∧
      (r.aged used evicted).bounds = grown evicted.toNat r.bounds used.bounds := by
  have hyoung : r.hi < used.lo ↔ r.bounds.2 < used.bounds.1 := by simp [bounds, UInt8.lt_iff_toNat_lt]
  have hmay : r.lo < used.hi ∧ r.hi < evicted ↔ r.bounds.1 < used.bounds.2 ∧ r.bounds.2 < evicted.toNat := by
    simp [bounds, UInt8.lt_iff_toNat_lt]
  unfold AgeRange.aged grown
  simp only [← hyoung, ← hmay]
  split
  · rename_i h
    have hlt : r.hi < evicted := UInt8.lt_of_lt_of_le h (UInt8.le_iff_toNat_le.mpr (hu.ordered.trans hu.bounded))
    obtain ⟨hproper, hbounds⟩ := hr.older hlt
    rw [hproper.capped_eq]
    exact ⟨hproper, hbounds⟩
  · split
    · rename_i h
      obtain ⟨hproper, hbounds⟩ := hr.wider h.2
      rw [hproper.capped_eq]
      exact ⟨hproper, hbounds⟩
    · rw [hr.capped_eq]
      exact ⟨hr, rfl⟩

/-- A range up to the evicted age does not change any more. -/
theorem Proper.aged_of_hi (hr : r.Proper evicted) (hu : used.Proper evicted) (hhi : r.hi = evicted) :
    r.aged used evicted = r := by
  have hle : used.lo.toNat ≤ evicted.toNat := hu.ordered.trans hu.bounded
  rw [AgeRange.aged, if_neg, if_neg, hr.capped_eq]
  · exact fun h => UInt8.lt_irrefl _ (hhi ▸ h.2)
  · exact fun h => absurd (UInt8.lt_iff_toNat_lt.mp (hhi ▸ h)) (Nat.not_lt.mpr hle)

end AgeRange

namespace AgeCache

variable {c d : AgeCache} {g : Geometry} {block x : UInt64} {r : AgeRange} {hit : Bool}

/-! ### Sparse caches -/

/-- No entry repeats the range of the blocks without an entry. -/
def Sparse (c : AgeCache) : Prop := ∀ (block : UInt64) (r : AgeRange), c.ages[block]? = some r → r ≠ c.default

theorem Sparse.setAge (h : c.Sparse) (block : UInt64) (r : AgeRange) : (c.setAge block r).Sparse := by
  intro x s hs
  unfold AgeCache.setAge at hs ⊢
  by_cases hr : r = c.default
  · simp only [hr, if_true, Std.ExtTreeMap.getElem?_erase] at hs
    split at hs
    · cases hs
    · exact h x s hs
  · simp only [hr, if_false, Std.ExtTreeMap.getElem?_insert] at hs
    split at hs
    · cases hs
      exact hr
    · exact h x s hs

theorem sparse_of_ages_empty (h : c.ages = ∅) : c.Sparse := by
  intro block r hr
  simp [h] at hr

theorem Sparse.access (h : c.Sparse) (block : UInt64) (r : AgeRange) : (c.access block r).Sparse := by
  refine Sparse.setAge (List.foldlRecOn _ _ h fun d hd b _ => ?_) _ _
  rw [ageBlock_eq]
  split
  · exact hd.setAge _ _
  · exact hd

theorem sparse_join (c d : AgeCache) : (c.join d).Sparse :=
  List.foldlRecOn _ _ (sparse_of_ages_empty rfl) fun _ he _ _ => he.setAge _ _

/-- The entries of a sparse cache are given by its ranges. -/
theorem Sparse.getElem?_ages (h : c.Sparse) (x : UInt64) :
    c.ages[x]? = if c.age x = c.default then none else some (c.age x) := by
  unfold age
  cases hx : c.ages[x]? with
  | none => simp
  | some r => simp [h x r hx]

theorem Sparse.ext (hc : c.Sparse) (hd : d.Sparse) (hgeometry : c.geometry = d.geometry)
    (hdefault : c.default = d.default) (hage : ∀ x, c.age x = d.age x) : c = d := by
  have hages : c.ages = d.ages := Std.ExtTreeMap.ext_getElem? fun x => by
    rw [hc.getElem?_ages, hd.getElem?_ages, hage, hdefault]
  cases c
  cases d
  congr

/-! ### Canonical caches -/

/-- A valid cache whose ranges all hold an age, and that is sparse. -/
structure Canonical (g : Geometry) (c : AgeCache) : Prop extends Valid g c where
  ordered : ∀ block, (c.age block).lo.toNat ≤ (c.age block).hi.toNat
  sparse : c.Sparse

theorem Canonical.proper (h : c.Canonical g) (block : UInt64) : (c.age block).Proper c.evicted :=
  ⟨h.ordered block, UInt8.le_iff_toNat_le.mp (h.hi_le block)⟩

theorem Canonical.evicted_eq (hc : c.Canonical g) (hd : d.Canonical g) : c.evicted = d.evicted := by
  rw [evicted, evicted, hc.geometry, hd.geometry]

theorem canonical_initial (params : CacheParams) : (initial params).Canonical params.geometry where
  toValid := valid_initial params
  ordered block := by
    rw [age_of_not_mem Std.ExtTreeMap.not_mem_empty]
    unfold initial
    dsimp only
    split
    · exact Nat.le_refl _
    · exact Nat.zero_le _
  sparse := sparse_of_ages_empty rfl

theorem Canonical.join (hc : c.Canonical g) (hd : d.Canonical g) : (c.join d).Canonical g where
  toValid := hc.toValid.join hd.toValid
  ordered x := by
    rw [age_join]
    exact ((hc.proper x).join (hd.evicted_eq hc ▸ hd.proper x)).ordered
  sparse := sparse_join c d

/-- In a canonical cache an access ages all other blocks of the set, whether they have an entry or not. -/
theorem Canonical.age_access (hc : c.Canonical g) (hr : r.Proper c.evicted) (block x : UInt64) :
    (c.access block r).age x =
      if x = block then { lo := 0, hi := 0 }
      else if c.geometry.setOf x = c.geometry.setOf block then (c.age x).aged r c.evicted
      else c.age x := by
  rw [AgeCache.age_access]
  split
  · rfl
  rename_i hne
  by_cases hset : c.geometry.setOf x = c.geometry.setOf block
  · rw [if_pos hset]
    split
    · rfl
    · rename_i hnot
      -- a block that is passed over is evicted or unknown, and ageing does not change its range
      refine ((hc.proper x).aged_of_hi hr ?_).symm
      by_cases hmem : x ∈ c.ages
      · have hlo : (c.age x).lo = c.evicted := by
          by_contra hlo
          exact hnot ⟨hmem, hne, hset, hlo⟩
        have hproper := hc.proper x
        exact UInt8.toNat_inj.mp (Nat.le_antisymm hproper.bounded (hlo ▸ hproper.ordered))
      · rw [age_of_not_mem hmem, hc.hi_default]
  · rw [if_neg hset, if_neg fun h => hset h.sameSet]

theorem Canonical.access (hc : c.Canonical g) (hr : r.Proper c.evicted) (block : UInt64) :
    (c.access block r).Canonical g where
  toValid := hc.toValid.access block r
  ordered x := by
    rw [hc.age_access hr]
    split
    · exact Nat.le_refl _
    split
    · exact ((hc.proper x).aged hr).1.ordered
    · exact hc.ordered x
  sparse := hc.sparse.access block r

/-! ### Accesses by their outcome -/

/-- An access to a block can hit, or can miss. -/
def Allows (c : AgeCache) (block : UInt64) : Bool → Prop
  | true => (c.age block).lo < c.evicted
  | false => (c.age block).hi = c.evicted

/-- The ages of a block that agree with the outcome of an access to it. -/
def refined (c : AgeCache) (block : UInt64) : Bool → AgeRange
  | true => if (c.age block).hi = c.evicted then { c.age block with hi := c.evicted - 1 } else c.age block
  | false => { lo := c.evicted, hi := c.evicted }

theorem after_touch_eq_some : (c.touch block).after hit = some d ↔
    c.Allows block hit ∧ c.access block (c.refined block hit) = d := by
  cases hit <;> simp [Outcomes.after, touch, Allows, refined]

/-- The ends of the refined ages, over unbounded numbers. -/
def refinedBounds (ways : Int) (r : Int × Int) : Bool → Int × Int
  | true => if r.2 = ways then (r.1, ways - 1) else r
  | false => (ways, ways)

theorem Canonical.refined (hc : c.Canonical g) (h : c.Allows block hit) :
    (c.refined block hit).Proper c.evicted ∧
      (c.refined block hit).bounds = refinedBounds c.evicted.toNat (c.age block).bounds hit := by
  obtain ⟨hordered, hbounded⟩ := hc.proper block
  cases hit with
  | false => exact ⟨⟨Nat.le_refl _, Nat.le_refl _⟩, rfl⟩
  | true =>
    have hlt := UInt8.lt_iff_toNat_lt.mp h
    have hheq : (c.age block).hi = c.evicted ↔ (c.age block).bounds.2 = c.evicted.toNat := by
      rw [← UInt8.toNat_inj]
      exact Int.ofNat_inj.symm
    simp only [AgeCache.refined, refinedBounds, ← hheq]
    split
    · have hpred : (c.evicted - 1).toNat = c.evicted.toNat - 1 := AgeRange.toNat_pred (by omega)
      have hordered : (c.age block).lo.toNat ≤ (c.evicted - 1).toNat := by omega
      have hbounded : (c.evicted - 1).toNat ≤ c.evicted.toNat := by omega
      refine ⟨⟨hordered, hbounded⟩, ?_⟩
      simp only [AgeRange.bounds, hpred, Prod.mk.injEq, true_and]
      omega
    · exact ⟨⟨hordered, hbounded⟩, rfl⟩

/-- The ends of the ages of a block after an access to the block `used`, over unbounded numbers and without
    cutting anything off. -/
def exactAge (c : AgeCache) (used : UInt64) (hit : Bool) (x : UInt64) : Int × Int :=
  let ways : Int := c.geometry.ways.toNat
  if x = used then (0, 0)
  else if c.geometry.setOf x = c.geometry.setOf used then
    AgeRange.grown ways (c.age x).bounds (refinedBounds ways (c.age used).bounds hit)
  else (c.age x).bounds

section Supported
variable (hg : g.Supported) (hc : c.Canonical g)
include hg hc

theorem Canonical.toNat_evicted : c.evicted.toNat = g.ways.toNat := by
  rw [evicted, hc.geometry, hg.toNat_ways]

theorem Canonical.after_touch (h : (c.touch block).after hit = some d) :
    d.Canonical g ∧ ∀ x, (d.age x).bounds = c.exactAge block hit x := by
  obtain ⟨hallows, rfl⟩ := after_touch_eq_some.mp h
  obtain ⟨hproper, hbounds⟩ := hc.refined hallows
  refine ⟨hc.access hproper block, fun x => ?_⟩
  rw [hc.age_access hproper, exactAge, hc.geometry]
  split
  · rfl
  split
  · rw [((hc.proper x).aged hproper).2, hbounds, hc.toNat_evicted hg]
  · rfl

end Supported

/-- An access to a canonical cache can hit or miss. -/
theorem Canonical.exists_outcome (hc : c.Canonical g) (block : UInt64) :
    (c.touch block).hit.isSome ∨ (c.touch block).miss.isSome := by
  obtain ⟨hordered, hbounded⟩ := hc.proper block
  by_cases hhi : (c.age block).hi = c.evicted
  · exact .inr (Option.isSome_of_eq_some (if_pos hhi))
  · have hne : (c.age block).hi.toNat ≠ c.evicted.toNat := fun h => hhi (UInt8.toNat_inj.mp h)
    exact .inl (Option.isSome_of_eq_some (if_pos (UInt8.lt_iff_toNat_lt.mpr (by omega))))

theorem exists_resolved {o : Outcomes AgeCache} (h : o.hit.isSome ∨ o.miss.isSome) : ∃ status d, o.Resolved status d := by
  cases hhit : o.hit with
  | none =>
    cases hmiss : o.miss with
    | none => simp [hhit, hmiss] at h
    | some miss => exact ⟨.miss, miss, .miss hhit hmiss⟩
  | some hit =>
    cases hmiss : o.miss with
    | none => exact ⟨.hit, hit, .hit hhit hmiss⟩
    | some miss => exact ⟨.hitOrMiss, hit.join miss, .both hhit hmiss rfl⟩

theorem Reachable.canonical (hg : g.Supported) (h : c.Reachable g) : c.Canonical g := by
  induction h with
  | initial initiallyEmpty => exact canonical_initial { geometry := g, initiallyEmpty }
  | touch _ access outcome ih =>
    cases (ih.touch_eq hg _).symm.trans access
    exact (ih.after_touch hg outcome).1
  | elapse _ _ ih => exact ih
  | join _ _ run ihc ihd =>
    cases run
    exact ihc.join ihd
  | widen _ _ run ihc ihd =>
    cases run
    exact ihc.join ihd

/-- Of every cache that an analysis comes to: blocks without an entry are evicted or unknown; every entry holds an age, none
    beyond the number of ways, and differs from the range of the blocks without an entry; there is an age below the evicted
    one; an access has an outcome, its arithmetic on bytes is exact and stays within the ages, and no domain finds the
    access impossible. -/
theorem reachable_cache_canonical (hg : g.Supported) (hc : c.Reachable g) :
    (c.default.bounds = (↑g.ways.toNat, ↑g.ways.toNat) ∨ c.default.bounds = (0, ↑g.ways.toNat)) ∧
    (∀ (block : UInt64) (r : AgeRange), c.ages[block]? = some r →
      0 ≤ r.bounds.1 ∧ r.bounds.1 ≤ r.bounds.2 ∧ r.bounds.2 ≤ g.ways.toNat ∧ r ≠ c.default) ∧
    (c.evicted - 1).toNat + 1 = g.ways.toNat ∧
    ∀ address, ∃ o, CacheModel.touch c address = .ok o ∧ (o.hit.isSome ∨ o.miss.isSome) ∧
      (∀ hit d, o.after hit = some d → ∀ x,
        (d.age x).bounds = c.exactAge (g.block address) hit x ∧ (d.age x).bounds.2 ≤ g.ways.toNat) ∧
      (∀ m, ∃ d, CacheOnly.touch c address m = .ok d m) ∧
      ∀ t (s : Traced AgeCache) m m', s.cache = c → Traced.touch t s address m ≠ .error .bottom m' := by
  have hc := hc.canonical hg
  have hways := hc.toNat_evicted hg
  have hpos := hg.ways_pos
  refine ⟨?_, fun block r hr => ?_, ?_, fun address => ?_⟩
  · rcases hc.lo_default with hlo | hlo
    · exact .inl (by simp only [AgeRange.bounds, hlo, hc.hi_default, hways])
    · exact .inr (by simp only [AgeRange.bounds, hlo, hc.hi_default, hways]; rfl)
  · have hage : c.age block = r := by rw [age, hr, Option.getD_some]
    obtain ⟨hordered, hbounded⟩ := hage ▸ hc.proper block
    exact ⟨Int.natCast_nonneg _, Int.ofNat_le.mpr hordered, Int.ofNat_le.mpr (hways ▸ hbounded), hc.sparse block r hr⟩
  · rw [AgeRange.toNat_pred (by omega), hways]
    omega
  · have htouch := hc.touch_eq hg address
    have houtcome := hc.exists_outcome (c.geometry.block address)
    obtain ⟨status, d, hd⟩ := exists_resolved houtcome
    refine ⟨_, htouch, houtcome, fun hit d h x => ?_, fun m => ⟨d, CacheOnly.touch_of_resolved htouch hd m⟩, ?_⟩
    · obtain ⟨hd, hexact⟩ := hc.after_touch hg h
      rw [← hc.geometry]
      exact ⟨hexact x, Int.ofNat_le.mpr (hc.geometry ▸ hd.toNat_evicted hg ▸ (hd.proper x).bounded)⟩
    · rintro t s m m' rfl hbottom
      obtain ⟨o, ho, hhit, hmiss, -⟩ := Traced.touch_eq_bottom hbottom
      cases htouch.symm.trans ho
      simp [hhit, hmiss] at houtcome

end AgeCache

/-- One set with as many lines as ages can count. -/
def Geometry.fullest : Geometry := { lineSize := 64, sets := 1, ways := 255 }

/-- What a hit on block 0 leaves of an unknown cache. -/
def AgeCache.fullest : AgeCache :=
  (initial { geometry := .fullest, initiallyEmpty := false }).access 0 { lo := 0, hi := 254 }

/-- The ages of block 1 go up to the largest byte. If an access to it misses, block 0 has the age 1 then. -/
theorem AgeCache.fullest_cache_canonical :
    fullest.Reachable .fullest ∧ (fullest.age 1).bounds = (0, 255) ∧
      ∃ o d, CacheModel.touch fullest 64 = .ok o ∧ o.after false = some d ∧ (d.age 0).bounds = (1, 1) ∧
        ∃ e, CacheOnly.touch fullest 64 {} = .ok e {} := by
  have hg : Geometry.fullest.Supported := ⟨by decide, by decide, by decide, by decide⟩
  have hstart : (initial { geometry := .fullest, initiallyEmpty := false }).Reachable .fullest := .initial false
  have hhit : ((initial { geometry := .fullest, initiallyEmpty := false }).touch 0).after true = some fullest := rfl
  have hc : fullest.Reachable .fullest := hstart.touch ((hstart.valid hg).touch_eq hg 0) hhit
  have hhi : (fullest.age (fullest.geometry.block 64)).hi = fullest.evicted := by decide +kernel
  have hmiss : (fullest.touch (fullest.geometry.block 64)).after false = some _ := after_touch_eq_some.mpr ⟨hhi, rfl⟩
  obtain ⟨-, -, -, haccess⟩ := reachable_cache_canonical hg hc
  obtain ⟨o, ho, -, hexact, honly, -⟩ := haccess 64
  cases ((hc.valid hg).touch_eq hg 64).symm.trans ho
  exact ⟨hc, by decide +kernel, _, _, ho, hmiss, (hexact false _ hmiss 0).1.trans (by decide +kernel), honly {}⟩

end CacheTiming
