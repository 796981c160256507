import CacheTiming.Proofs.Cache.Canonical
import Mathlib.Order.Lattice

/-! The order of abstract caches.

Ranges are ordered by inclusion, and their join is the least range that includes both. Caches are
compared block by block, with or without entries. On canonical caches this is a partial order with
least upper bounds, and accesses respect it: what is known less precisely before an access is known
less precisely after it. -/

namespace CacheTiming

/-! ### Ranges -/

namespace AgeRange

variable {r s t used used' : AgeRange} {evicted : UInt8}

theorem within_iff : r.within s = true ↔ s.bounds.1 ≤ r.bounds.1 ∧ r.bounds.2 ≤ s.bounds.2 := by
  simp [within, bounds, UInt8.le_iff_toNat_le]

/-- Ranges are ordered by inclusion. -/
instance : SemilatticeSup AgeRange where
  le r s := r.within s = true
  sup := join
  le_refl r := within_iff.mpr ⟨Int.le_refl _, Int.le_refl _⟩
  le_trans r s t hrs hst := by
    rw [within_iff] at *
    exact ⟨hst.1.trans hrs.1, hrs.2.trans hst.2⟩
  le_antisymm r s hrs hsr := by
    rw [within_iff] at *
    exact bounds_inj (Prod.ext (Int.le_antisymm hsr.1 hrs.1) (Int.le_antisymm hrs.2 hsr.2))
  le_sup_left r s := by
    rw [within_iff, bounds_join]
    exact ⟨Int.min_le_left _ _, Int.le_max_left _ _⟩
  le_sup_right r s := by
    rw [within_iff, bounds_join]
    exact ⟨Int.min_le_right _ _, Int.le_max_right _ _⟩
  sup_le r s t hrt hst := by
    rw [within_iff] at *
    rw [bounds_join]
    exact ⟨Int.le_min.mpr ⟨hrt.1, hst.1⟩, Int.max_le.mpr ⟨hrt.2, hst.2⟩⟩

theorem le_iff : r ≤ s ↔ s.bounds.1 ≤ r.bounds.1 ∧ r.bounds.2 ≤ s.bounds.2 := within_iff

theorem Proper.bounds (h : r.Proper evicted) : r.bounds.1 ≤ r.bounds.2 ∧ r.bounds.2 ≤ evicted.toNat :=
  ⟨Int.ofNat_le.mpr h.ordered, Int.ofNat_le.mpr h.bounded⟩

theorem grown_fst (ways : Int) (r used : Int × Int) :
    (grown ways r used).1 = if r.2 < used.1 then r.1 + 1 else r.1 := by
  unfold grown
  split
  · rfl
  · split <;> rfl

theorem grown_snd (ways : Int) (r used : Int × Int) :
    (grown ways r used).2 = if r.2 < used.1 ∨ r.1 < used.2 ∧ r.2 < ways then r.2 + 1 else r.2 := by
  unfold grown
  split
  · rename_i h
    rw [if_pos (.inl h)]
  · rename_i h
    simp only [h, false_or]
    split <;> rfl

/-- The wider the ranges of a block and of the accessed block are, the wider is the range after the access. -/
theorem Proper.aged_mono (hr : r.Proper evicted) (hs : s.Proper evicted) (hu : used.Proper evicted)
    (hu' : used'.Proper evicted) (hrs : r ≤ s) (huu' : used ≤ used') :
    r.aged used evicted ≤ s.aged used' evicted := by
  rw [le_iff] at *
  rw [(hr.aged hu).2, (hs.aged hu').2]
  obtain ⟨hr, -⟩ := hr.bounds
  obtain ⟨-, hs⟩ := hs.bounds
  obtain ⟨hu, hu'⟩ := hu.bounds
  constructor
  · -- where the lower end of the wider range moves, that of the narrower one does
    rw [grown_fst, grown_fst]
    split <;> split <;> omega
  · -- where the upper ends are equal and that of the narrower range moves, so does the other
    rw [grown_snd, grown_snd]
    split <;> split <;> omega

end AgeRange

/-! ### Caches -/

namespace AgeCache

variable {a b c d : AgeCache} {g : Geometry} {block x : UInt64} {r s : AgeRange} {hit : Bool}

theorem subseteq_iff : c.subseteq d = true ↔ c.default ≤ d.default ∧ ∀ x, c.age x ≤ d.age x := by
  constructor
  · intro h
    exact ⟨(Bool.and_eq_true_iff.mp h).1, within_of_subseteq h⟩
  · rintro ⟨hdefault, hage⟩
    exact Bool.and_eq_true_iff.mpr ⟨hdefault, List.all_eq_true.mpr fun x _ => hage x⟩

theorem subseteq_refl (c : AgeCache) : c.subseteq c = true := subseteq_iff.mpr ⟨le_rfl, fun _ => le_rfl⟩

theorem subseteq_trans (hab : a.subseteq b = true) (hbc : b.subseteq c = true) : a.subseteq c = true := by
  rw [subseteq_iff] at *
  exact ⟨hab.1.trans hbc.1, fun x => (hab.2 x).trans (hbc.2 x)⟩

theorem subseteq_join_left (c d : AgeCache) : c.subseteq (c.join d) = true := by
  rw [subseteq_iff, default_join]
  refine ⟨le_sup_left, fun x => ?_⟩
  rw [age_join]
  exact le_sup_left

theorem subseteq_join_right (c d : AgeCache) : d.subseteq (c.join d) = true := by
  rw [subseteq_iff, default_join]
  refine ⟨le_sup_right, fun x => ?_⟩
  rw [age_join]
  exact le_sup_right

theorem join_subseteq (hac : a.subseteq c = true) (hbc : b.subseteq c = true) : (a.join b).subseteq c = true := by
  rw [subseteq_iff] at *
  rw [default_join]
  refine ⟨sup_le hac.1 hbc.1, fun x => ?_⟩
  rw [age_join]
  exact sup_le (hac.2 x) (hbc.2 x)

/-- Mutual inclusion of canonical caches is equality: neither has entries that the ranges do not call for. -/
theorem Canonical.subseteq_antisymm (ha : a.Canonical g) (hb : b.Canonical g) (hab : a.subseteq b = true)
    (hba : b.subseteq a = true) : a = b := by
  rw [subseteq_iff] at *
  refine ha.sparse.ext hb.sparse ?_ (hab.1.antisymm hba.1) fun x => (hab.2 x).antisymm (hba.2 x)
  rw [ha.geometry, hb.geometry]

/-- Canonical caches are ordered by inclusion. -/
instance (g : Geometry) : SemilatticeSup { c : AgeCache // c.Canonical g } where
  le c d := c.1.subseteq d.1 = true
  sup c d := ⟨c.1.join d.1, c.2.join d.2⟩
  le_refl c := subseteq_refl c.1
  le_trans _ _ _ := subseteq_trans
  le_antisymm c d hcd hdc := Subtype.ext (c.2.subseteq_antisymm d.2 hcd hdc)
  le_sup_left c d := subseteq_join_left c.1 d.1
  le_sup_right c d := subseteq_join_right c.1 d.1
  sup_le _ _ _ := join_subseteq

/-- What a miss on block 0 leaves of a cache that is empty or unknown at first. -/
def fresh (initiallyEmpty : Bool) : AgeCache :=
  (initial { geometry := .pair, initiallyEmpty }).access 0 { lo := 2, hi := 2 }

theorem supported_pair : Geometry.pair.Supported := ⟨by decide, by decide, by decide, by decide⟩

theorem reachable_fresh (initiallyEmpty : Bool) : (fresh initiallyEmpty).Reachable .pair := by
  have hstart : (initial { geometry := .pair, initiallyEmpty }).Reachable .pair := .initial initiallyEmpty
  have hmiss : ((initial { geometry := .pair, initiallyEmpty }).touch (Geometry.pair.block 0)).after false =
      some (fresh initiallyEmpty) := rfl
  exact hstart.touch ((hstart.valid supported_pair).touch_eq supported_pair 0) hmiss

/-- The caches that an analysis comes to form a join semilattice: inclusion is a partial order, a join is the least upper
    bound, joins are commutative, associative and idempotent, and the range of every block in a join is the hull of its
    two ranges. -/
theorem reachable_caches_semilattice (hg : g.Supported) (ha : a.Reachable g) (hb : b.Reachable g) (hc : c.Reachable g) :
    a.subseteq a = true ∧ (a.subseteq b = true → b.subseteq c = true → a.subseteq c = true) ∧
    (a.subseteq b = true → b.subseteq a = true → a = b) ∧
    (a.join b).Reachable g ∧ a.subseteq (a.join b) = true ∧ b.subseteq (a.join b) = true ∧
    (a.subseteq c = true → b.subseteq c = true → (a.join b).subseteq c = true) ∧
    a.join b = b.join a ∧ (a.join b).join c = a.join (b.join c) ∧ a.join a = a ∧
    ∀ x, ((a.join b).age x).bounds =
      (min (a.age x).bounds.1 (b.age x).bounds.1, max (a.age x).bounds.2 (b.age x).bounds.2) := by
  have ha' := ha.canonical hg
  have hb' := hb.canonical hg
  have hc' := hc.canonical hg
  refine ⟨subseteq_refl a, subseteq_trans, ha'.subseteq_antisymm hb', ha.join hb rfl, subseteq_join_left a b,
    subseteq_join_right a b, join_subseteq, ?_, ?_, ?_, fun x => ?_⟩
  -- these laws hold in every semilattice
  · exact congrArg Subtype.val (sup_comm (⟨a, ha'⟩ : { c : AgeCache // c.Canonical g }) ⟨b, hb'⟩)
  · exact congrArg Subtype.val (sup_assoc (⟨a, ha'⟩ : { c : AgeCache // c.Canonical g }) ⟨b, hb'⟩ ⟨c, hc'⟩)
  · exact congrArg Subtype.val (sup_idem (⟨a, ha'⟩ : { c : AgeCache // c.Canonical g }))
  · rw [age_join, AgeRange.bounds_join]

/-- Joins of caches of which some were empty and some unknown at first. In the join with the unknown cache nothing is known
    of block 0 any more, and its entry is gone. -/
theorem fresh_caches_semilattice :
    (fresh true).join (initial { geometry := .pair, initiallyEmpty := false }) =
      (initial { geometry := .pair, initiallyEmpty := false }).join (fresh true) ∧
    ((fresh true).join (initial { geometry := .pair, initiallyEmpty := false })).join (fresh false) =
      (fresh true).join ((initial { geometry := .pair, initiallyEmpty := false }).join (fresh false)) ∧
    (((fresh true).join (initial { geometry := .pair, initiallyEmpty := false })).age 0).bounds = (0, 2) ∧
    ((fresh true).join (initial { geometry := .pair, initiallyEmpty := false })).ages[(0 : UInt64)]? = none := by
  obtain ⟨-, -, -, -, -, -, -, hcomm, hassoc, -, hbounds⟩ :=
    reachable_caches_semilattice supported_pair (reachable_fresh true) (.initial false) (reachable_fresh false)
  exact ⟨hcomm, hassoc, (hbounds 0).trans (by decide +kernel), by decide +kernel⟩

/-! ### Accesses -/

section Access
variable (ha : a.Canonical g) (hb : b.Canonical g) (h : a.subseteq b = true)
include ha hb h

/-- A cache that includes another allows all outcomes that this one allows, and knows less about the block. -/
theorem Canonical.refined_mono (hallows : a.Allows block hit) :
    b.Allows block hit ∧ a.refined block hit ≤ b.refined block hit := by
  have hev := ha.evicted_eq hb
  have hage := AgeRange.le_iff.mp ((subseteq_iff.mp h).2 block)
  have hproper := (hb.proper block).bounds
  have hallows' : b.Allows block hit := by
    cases hit with
    | true =>
      have hlt : (a.age block).lo.toNat < a.evicted.toNat := UInt8.lt_iff_toNat_lt.mp hallows
      have hle : (b.age block).lo.toNat ≤ (a.age block).lo.toNat := Int.ofNat_le.mp hage.1
      exact UInt8.lt_iff_toNat_lt.mpr (hev ▸ Nat.lt_of_le_of_lt hle hlt)
    | false =>
      have heq : (a.age block).hi = a.evicted := hallows
      have hle : (a.age block).hi.toNat ≤ (b.age block).hi.toNat := Int.ofNat_le.mp hage.2
      rw [heq, hev] at hle
      exact UInt8.toNat_inj.mp (Nat.le_antisymm (hb.proper block).bounded hle)
  refine ⟨hallows', ?_⟩
  rw [AgeRange.le_iff, (ha.refined hallows).2, (hb.refined hallows').2, ← hev]
  cases hit with
  | false => exact ⟨Int.le_refl _, Int.le_refl _⟩
  | true =>
    -- both upper ends are cut to the last age of a cached block
    rw [← hev] at hproper
    simp only [refinedBounds]
    split <;> split <;> omega

theorem Canonical.access_mono (hr : r.Proper a.evicted) (hs : s.Proper b.evicted) (hrs : r ≤ s) (block : UInt64) :
    (a.access block r).subseteq (b.access block s) = true := by
  obtain ⟨hdefault, hage⟩ := subseteq_iff.mp h
  have hev := ha.evicted_eq hb
  rw [subseteq_iff, default_access, default_access]
  refine ⟨hdefault, fun x => ?_⟩
  rw [ha.age_access hr, hb.age_access hs, ha.geometry, hb.geometry]
  split
  · exact le_rfl
  split
  · rw [hev] at hr ⊢
    exact AgeRange.Proper.aged_mono (hev ▸ ha.proper x) (hb.proper x) hr hs (hage x) hrs
  · exact hage x

theorem Canonical.touch_mono {a' : AgeCache} (ht : (a.touch block).after hit = some a') :
    ∃ b', (b.touch block).after hit = some b' ∧ a'.subseteq b' = true := by
  obtain ⟨hallows, rfl⟩ := after_touch_eq_some.mp ht
  obtain ⟨hallows', hle⟩ := ha.refined_mono hb h hallows
  refine ⟨_, after_touch_eq_some.mpr ⟨hallows', rfl⟩, ?_⟩
  exact ha.access_mono hb h (ha.refined hallows).1 (hb.refined hallows').1 hle block

end Access

section Resolved
variable {o : Outcomes AgeCache} {status : Status}

/-- The cache that a domain goes on with includes all outcomes. -/
theorem subseteq_resolved (hr : o.Resolved status c) (hd : o.after hit = some d) : d.subseteq c = true := by
  cases hr with
  | hit hhit hmiss =>
    cases hit with
    | true =>
      cases hhit.symm.trans hd
      exact subseteq_refl c
    | false => cases hmiss.symm.trans hd
  | miss hhit hmiss =>
    cases hit with
    | true => cases hhit.symm.trans hd
    | false =>
      cases hmiss.symm.trans hd
      exact subseteq_refl c
  | both hhit hmiss hjoin =>
    cases hjoin
    cases hit with
    | true =>
      cases hhit.symm.trans hd
      exact subseteq_join_left _ _
    | false =>
      cases hmiss.symm.trans hd
      exact subseteq_join_right _ _

/-- No smaller cache includes all outcomes. -/
theorem resolved_subseteq (hr : o.Resolved status c) (hd : ∀ hit c', o.after hit = some c' → c'.subseteq d = true) :
    c.subseteq d = true := by
  cases hr with
  | hit hhit hmiss => exact hd true _ hhit
  | miss hhit hmiss => exact hd false _ hmiss
  | both hhit hmiss hjoin =>
    cases hjoin
    exact join_subseteq (hd true _ hhit) (hd false _ hmiss)

end Resolved

/-- Accesses respect inclusion: a cache that includes another has all outcomes that this one has, each includes the
    other's, and so do the caches that the domain goes on with, even where they come from different outcomes. -/
theorem reachable_touch_monotone (hg : g.Supported) (ha : a.Reachable g) (hb : b.Reachable g)
    (h : a.subseteq b = true) (address : UInt64) :
    ∃ o o', CacheModel.touch a address = .ok o ∧ CacheModel.touch b address = .ok o' ∧
      (∀ hit a', o.after hit = some a' → ∃ b', o'.after hit = some b' ∧ a'.subseteq b' = true) ∧
      ∀ m m', ∃ a' b', CacheOnly.touch a address m = .ok a' m ∧ CacheOnly.touch b address m' = .ok b' m' ∧
        a'.subseteq b' = true := by
  have ha := ha.canonical hg
  have hb := hb.canonical hg
  have hta := ha.touch_eq hg address
  have htb := hb.touch_eq hg address
  rw [ha.geometry] at hta
  rw [hb.geometry] at htb
  have hmono : ∀ hit a', (a.touch (g.block address)).after hit = some a' →
      ∃ b', (b.touch (g.block address)).after hit = some b' ∧ a'.subseteq b' = true := fun hit a' => ha.touch_mono hb h
  refine ⟨_, _, hta, htb, hmono, fun m m' => ?_⟩
  obtain ⟨status, a', ha'⟩ := exists_resolved (ha.exists_outcome (g.block address))
  obtain ⟨status', b', hb'⟩ := exists_resolved (hb.exists_outcome (g.block address))
  refine ⟨a', b', CacheOnly.touch_of_resolved hta ha' m, CacheOnly.touch_of_resolved htb hb' m', ?_⟩
  refine resolved_subseteq ha' fun hit c hc => ?_
  obtain ⟨d, hd, hcd⟩ := hmono hit c hc
  exact subseteq_trans hcd (subseteq_resolved hb' hd)

/-- Block 1 is accessed after block 0. If the cache was empty at first, this misses, and block 0 has the age 1 then; if it was
    unknown, it may hit or miss, and block 0 has the age 0 or 1. -/
theorem fresh_touch_monotone :
    (fresh true).subseteq (fresh false) = true ∧ ((fresh true).touch 1).hit.isSome = false ∧
      ((fresh false).touch 1).hit.isSome = true ∧ ((fresh false).touch 1).miss.isSome = true ∧
      ∃ a' b', CacheOnly.touch (fresh true) 64 {} = .ok a' {} ∧ CacheOnly.touch (fresh false) 64 {} = .ok b' {} ∧
        a'.subseteq b' = true := by
  have hsub : (fresh true).subseteq (fresh false) = true := by decide +kernel
  obtain ⟨-, -, -, -, -, htouch⟩ := reachable_touch_monotone supported_pair (reachable_fresh true)
    (reachable_fresh false) hsub 64
  exact ⟨hsub, by decide +kernel, by decide +kernel, by decide +kernel, htouch {} {}⟩

end AgeCache

end CacheTiming
