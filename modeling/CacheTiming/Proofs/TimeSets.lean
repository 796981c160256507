import CacheTiming.Proofs.Domain.Traced
import CacheTiming.Proofs.Cache.Reachable
import Mathlib.Data.Finset.Card
import Mathlib.Order.Closure
import Mathlib.Order.WithBot

/-! Sets of times as mathematical sets.

A set of times that is kept as a strictly ascending list stands for the finite set of its members, and unknown times
stand for all of them. Union, shifting and inclusion are what they are called, except that a set is given up when a
time leaves the 64 bits or when there are too many. Giving up is a closure operator on the sets, so the laws of
bounded unions are those of closed sets. -/

namespace CacheTiming

namespace Times

variable {t t' u u' v : Times} {limit : Int} {d : UInt64}

/-! ### Members -/

/-- The times are kept strictly ascending. -/
def Ascends : Times → Prop
  | .unknown => True
  | .known ts => ts.Pairwise (· < ·)

/-- The members of a set; if they are unknown, every set is included in it. -/
def members : Times → WithTop (Finset UInt64)
  | .unknown => ⊤
  | .known ts => (ts.toFinset : Finset UInt64)

@[simp] theorem members_unknown : unknown.members = ⊤ := rfl

@[simp] theorem members_known (ts : List UInt64) : (known ts).members = (ts.toFinset : Finset UInt64) := rfl

theorem members_eq_top : t.members = ⊤ ↔ t = .unknown := by
  cases t with
  | unknown => simp
  | known ts => simp

theorem members_le_known {ts us : List UInt64} : (known ts).members ≤ (known us).members ↔ ts ⊆ us := by
  rw [members_known, members_known, WithTop.coe_le_coe]
  simp [Finset.subset_iff, List.subset_def]

/-- An ascending list is given by its members. -/
theorem Ascends.ext (ht : t.Ascends) (hu : u.Ascends) (h : t.members = u.members) : t = u := by
  cases t with
  | unknown => exact (members_eq_top.mp h.symm).symm
  | known ts =>
    cases u with
    | unknown => exact members_eq_top.mp h
    | known us =>
      rw [(members_le_known.mp h.le).antisymm_of_pairwise ht hu (members_le_known.mp h.ge)]

/-- Inclusion is decided right, and unknown times include all others. -/
theorem subseteq_iff_members_le (ht : t.Ascends) (hu : u.Ascends) : t.subseteq u = true ↔ t.members ≤ u.members := by
  cases u with
  | unknown => simp [subseteq]
  | known us =>
    cases t with
    | unknown => simp [subseteq]
    | known ts =>
      rw [members_le_known]
      exact ⟨fun h _ => Ascending.mem_of_subset h, Ascending.subset_of_forall_mem ht hu⟩

/-! ### Bounded unions -/

/-- A set with members, of which there are more than a limit allows. -/
def Exceeds (limit : Int) (s : Finset UInt64) : Prop := s.Nonempty ∧ limit < s.card

instance (limit : Int) (s : Finset UInt64) : Decidable (Exceeds limit s) :=
  inferInstanceAs (Decidable (_ ∧ _))

theorem Exceeds.mono {s s' : Finset UInt64} (h : Exceeds limit s) (hs : s ⊆ s') : Exceeds limit s' :=
  ⟨h.1.mono hs, h.2.trans_le (Int.ofNat_le.mpr (Finset.card_le_card hs))⟩

/-- Gives up a set that exceeds a limit. -/
def capped (limit : Int) : WithTop (Finset UInt64) → WithTop (Finset UInt64)
  | ⊤ => ⊤
  | .some s => if Exceeds limit s then ⊤ else .some s

theorem capped_coe (limit : Int) (s : Finset UInt64) :
    capped limit s = if Exceeds limit s then ⊤ else (s : WithTop (Finset UInt64)) := rfl

/-- Unknown times and sets that do not exceed a limit. -/
def Closed (limit : Int) (s : WithTop (Finset UInt64)) : Prop := ∀ s' : Finset UInt64, s = s' → ¬ Exceeds limit s'

theorem le_capped (s : WithTop (Finset UInt64)) : s ≤ capped limit s := by
  cases s with
  | top => exact le_rfl
  | coe s =>
    rw [capped_coe]
    split
    · exact le_top
    · exact le_rfl

theorem closed_capped (s : WithTop (Finset UInt64)) : Closed limit (capped limit s) := by
  cases s with
  | top => rintro s' ⟨⟩
  | coe s =>
    rw [capped_coe]
    split
    · rintro s' ⟨⟩
    · rename_i h
      intro s' heq
      rwa [← WithTop.coe_inj.mp heq]

theorem capped_le {s s' : WithTop (Finset UInt64)} (hle : s ≤ s') (hs' : Closed limit s') : capped limit s ≤ s' := by
  cases s with
  | top => exact hle
  | coe s =>
    rw [capped_coe]
    split
    · rename_i hexceeds
      -- what includes too many times exceeds the limit itself, unless it is unknown
      cases s' with
      | top => exact le_rfl
      | coe s' => exact absurd (hexceeds.mono (WithTop.coe_le_coe.mp hle)) (hs' s' rfl)
    · exact hle

/-- Giving up as a closure operator. -/
def ceiling (limit : Int) : ClosureOperator (WithTop (Finset UInt64)) :=
  .ofPred (capped limit) (Closed limit) le_capped closed_capped fun _ _ => capped_le

theorem ceiling_coe (limit : Int) (s : Finset UInt64) :
    ceiling limit (s : WithTop (Finset UInt64)) = if Exceeds limit s then ⊤ else (s : WithTop (Finset UInt64)) := rfl

theorem ceiling_eq_top {s : WithTop (Finset UInt64)} :
    ceiling limit s = ⊤ ↔ s = ⊤ ∨ ∃ s' : Finset UInt64, s = s' ∧ Exceeds limit s' := by
  cases s with
  | top => simp
  | coe s => simp [ceiling_coe]

theorem ceiling_eq_self {s : WithTop (Finset UInt64)} (h : ceiling limit s ≠ ⊤) : ceiling limit s = s := by
  cases s with
  | top => simp
  | coe s =>
    rw [ceiling_coe] at h ⊢
    split
    · rename_i hexceeds
      exact absurd (if_pos hexceeds) h
    · rfl

theorem coe_sup_toFinset (ts us : List UInt64) :
    (ts.toFinset : WithTop (Finset UInt64)) ⊔ us.toFinset = ((Ascending.union ts us).toFinset : Finset UInt64) := by
  rw [← WithTop.coe_sup, Finset.sup_eq_union]
  congr 1
  ext x
  simp [Ascending.mem_union]

theorem Ascends.union (ht : t.Ascends) (hu : u.Ascends) (limit : Int) : (union limit t u).Ascends := by
  cases h : Times.union limit t u with
  | unknown => trivial
  | known values =>
    obtain ⟨ts, us, rfl, rfl, rfl⟩ := union_eq_known h
    exact Ascending.pairwise_union ht hu

/-- A union has the members of both sets, unless these exceed the limit. -/
theorem members_union (ht : t.Ascends) (hu : u.Ascends) (limit : Int) :
    (Times.union limit t u).members = ceiling limit (t.members ⊔ u.members) := by
  cases t with
  | unknown => simp [Times.union, members]
  | known ts =>
    cases u with
    | unknown => simp [Times.union, members]
    | known us =>
      have hunion : (Ascending.union ts us).Pairwise (· < ·) := Ascending.pairwise_union ht hu
      have hexceeds : Exceeds limit (Ascending.union ts us).toFinset ↔
          Ascending.union ts us ≠ [] ∧ limit < (Ascending.union ts us).length := by
        rw [Exceeds, List.toFinset_nonempty_iff, List.toFinset_card_of_nodup hunion.nodup]
      rw [members_known, members_known, coe_sup_toFinset, ceiling_coe, union_known]
      by_cases h : Exceeds limit (Ascending.union ts us).toFinset
      · rw [if_pos h, if_pos (hexceeds.mp h), members_unknown]
      · rw [if_neg h, if_neg fun h' => h (hexceeds.mpr h'), members_known]

theorem union_comm (ht : t.Ascends) (hu : u.Ascends) (limit : Int) : Times.union limit t u = Times.union limit u t := by
  refine (ht.union hu limit).ext (hu.union ht limit) ?_
  rw [members_union ht hu, members_union hu ht, sup_comm]

theorem union_assoc (ht : t.Ascends) (hu : u.Ascends) (hv : v.Ascends) (limit : Int) :
    Times.union limit (Times.union limit t u) v = Times.union limit t (Times.union limit u v) := by
  have htu := ht.union hu limit
  have huv := hu.union hv limit
  refine (htu.union hv limit).ext (ht.union huv limit) ?_
  rw [members_union htu hv, members_union ht hu, members_union ht huv, members_union hu hv,
    ClosureOperator.closure_sup_closure_left, ClosureOperator.closure_sup_closure_right, sup_assoc]

theorem union_mono (ht : t.Ascends) (hu : u.Ascends) (ht' : t'.Ascends) (hu' : u'.Ascends)
    (h : t.subseteq t' = true) (h' : u.subseteq u' = true) (limit : Int) :
    (Times.union limit t u).subseteq (Times.union limit t' u') = true := by
  rw [subseteq_iff_members_le ht ht'] at h
  rw [subseteq_iff_members_le hu hu'] at h'
  rw [subseteq_iff_members_le (ht.union hu limit) (ht'.union hu' limit), members_union ht hu, members_union ht' hu']
  exact (ceiling limit).monotone (sup_le_sup h h')

/-! ### Shifts -/

/-- A shift is known if and only if no time leaves the 64 bits. -/
theorem shift_eq_unknown :
    t.shift d = .unknown ↔ t = .unknown ∨ ∃ ts, t = .known ts ∧ ∃ v ∈ ts, UInt64.size ≤ v.toNat + d.toNat := by
  cases t with
  | unknown => simp [shift]
  | known ts => simp [shift, addTimes]

theorem Ascends.shift (ht : t.Ascends) (d : UInt64) : (t.shift d).Ascends := by
  cases h : t.shift d with
  | unknown => trivial
  | known values =>
    obtain ⟨ts, rfl, rfl, hfit⟩ := shift_eq_known h
    have ht : ts.Pairwise (· < ·) := ht
    refine List.pairwise_map.mpr (ht.imp_of_mem fun {v w} hv hw hlt => ?_)
    have hv := hfit v hv
    have hw := hfit w hw
    rw [UInt64.lt_iff_toNat_lt] at hlt ⊢
    rw [UInt64.toNat_add, UInt64.toNat_add]
    simp only [UInt64.size] at hv hw
    omega

theorem shift_known {ts : List UInt64} (h : ∀ v ∈ ts, v.toNat + d.toNat < UInt64.size) :
    (known ts).shift d = .known (ts.map (· + d)) := by
  cases hshift : (known ts).shift d with
  | unknown =>
    rcases shift_eq_unknown.mp hshift with hunknown | ⟨_, ⟨⟩, v, hv, hwrap⟩
    · cases hunknown
    · exact absurd (h v hv) (Nat.not_lt.mpr hwrap)
  | known values =>
    obtain ⟨_, ⟨⟩, rfl, -⟩ := shift_eq_known hshift
    rfl

theorem members_shift_mono (h : t.members ≤ u.members) (d : UInt64) : (t.shift d).members ≤ (u.shift d).members := by
  cases hshift : u.shift d with
  | unknown => exact le_top
  | known values =>
    obtain ⟨us, rfl, rfl, hfit⟩ := shift_eq_known hshift
    cases t with
    | unknown => cases h
    | known ts =>
      have hsubset := members_le_known.mp h
      rw [shift_known fun v hv => hfit v (hsubset hv), members_le_known]
      exact List.map_subset _ hsubset

theorem shiftBy_mono (ht : t.Ascends) (hu : u.Ascends) (h : t.subseteq u = true) {status : Status}
    {durations : Durations} (ht' : t.shiftBy status durations limit = .ok t') :
    ∃ u', u.shiftBy status durations limit = .ok u' ∧ t'.subseteq u' = true := by
  have hshift : ∀ d, (t.shift d).subseteq (u.shift d) = true := fun d => by
    rw [subseteq_iff_members_le (ht.shift d) (hu.shift d)]
    exact members_shift_mono ((subseteq_iff_members_le ht hu).mp h) d
  cases status with
  | hit | miss | noAccess =>
    cases ht'
    exact ⟨_, rfl, hshift _⟩
  | hitOrMiss =>
    cases ht'
    exact ⟨_, rfl, union_mono (ht.shift _) (ht.shift _) (hu.shift _) (hu.shift _) (hshift _) (hshift _) limit⟩
  | none | unknown => cases ht'

/-! ### The sets of an analysis -/

/-- Times that are kept ascending, and no more of them than a limit allows. -/
structure Bounded (limit : Int) (t : Times) : Prop where
  ascends : t.Ascends
  length_le : ∀ ts, t = .known ts → ts.length ≤ limit

theorem Bounded.shift (h : t.Bounded limit) (d : UInt64) : (t.shift d).Bounded limit where
  ascends := h.ascends.shift d
  length_le values hv := by
    obtain ⟨ts, ht, rfl, -⟩ := shift_eq_known hv
    rw [List.length_map]
    exact h.length_le ts ht

theorem bounded_union (hlimit : 0 ≤ limit) (ht : t.Ascends) (hu : u.Ascends) :
    (Times.union limit t u).Bounded limit where
  ascends := ht.union hu limit
  length_le values hv := by
    obtain ⟨ts, us, rfl, rfl, rfl⟩ := union_eq_known hv
    by_contra hlong
    have hne : Ascending.union ts us ≠ [] := by
      intro hnil
      simp [hnil, hlimit] at hlong
    rw [union_known, if_pos ⟨hne, Int.not_le.mp hlong⟩] at hv
    cases hv

theorem Bounded.shiftBy (hlimit : 0 ≤ limit) (h : t.Bounded limit) {status : Status} {durations : Durations}
    (hu : t.shiftBy status durations limit = .ok u) : u.Bounded limit := by
  cases status with
  | hit | miss | noAccess =>
    cases hu
    exact h.shift _
  | hitOrMiss =>
    cases hu
    exact bounded_union hlimit (h.shift _).ascends (h.shift _).ascends
  | none | unknown => cases hu

end Times

/-- The states that the operations of a domain lead to, whatever is in its memory. -/
inductive Domain.Reachable {μ σ : Type} (d : Domain μ σ) : σ → Prop where
  | init : Reachable d d.init
  | touch {s r : σ} {address : UInt64} {m m' : μ} (before : Reachable d s) (run : d.touch s address m = .ok r m') :
      Reachable d r
  | elapse {s r : σ} {time : UInt64} {m m' : μ} (before : Reachable d s) (run : d.elapse s time m = .ok r m') :
      Reachable d r
  | join {s u r : σ} {m m' : μ} (left : Reachable d s) (right : Reachable d u) (run : d.join s u m = .ok r m') :
      Reachable d r
  | widen {s u r : σ} {m m' : μ} (left : Reachable d s) (right : Reachable d u) (run : d.widen s u m = .ok r m') :
      Reachable d r

theorem Traced.bounded_times {χ : Type} [CacheModel χ] {t : Timing} {initial : χ} (hlimit : 1 ≤ t.maxTimes)
    {s : Traced χ} (h : (domain t initial).Reachable s) : s.times.Bounded t.maxTimes := by
  have hnonneg : 0 ≤ t.maxTimes := Int.le_trans (by decide) hlimit
  have hmerged : ∀ {traces caches} {s u r : Traced χ} {m m' : Memory}, merge t traces caches s u m = .ok r m' →
      s.times.Bounded t.maxTimes → u.times.Bounded t.maxTimes → r.times.Bounded t.maxTimes := by
    intro traces caches s u r m m' hm hs hu
    rw [(merge_eq_ok hm).2.2]
    exact Times.bounded_union hnonneg hs.ascends hu.ascends
  induction h with
  | init =>
    refine ⟨List.pairwise_singleton _ _, fun ts hts => ?_⟩
    cases hts
    exact hlimit
  | touch _ run ih =>
    obtain ⟨_, _, _, -, -, ⟨-, hshifted⟩⟩ := touch_eq_ok run
    exact ih.shiftBy hnonneg hshifted
  | elapse _ run ih =>
    obtain ⟨-, hshifted⟩ := elapse_eq_ok run
    exact (ih.shift _).shiftBy hnonneg hshifted
  | join _ _ run ihs ihu => exact hmerged run ihs ihu
  | widen _ _ run ihs ihu => exact hmerged run ihs ihu

namespace Times

variable {t u : Times} {limit : Int}

/-- The operations on sets of times answer what they answer on the sets of their members. -/
structure Exact (limit : Int) (t u : Times) : Prop where
  union_unknown : union limit t u = .unknown ↔ t = .unknown ∨ u = .unknown ∨
    ∃ s : Finset UInt64, t.members ⊔ u.members = s ∧ s.Nonempty ∧ limit < s.card
  union_known : union limit t u ≠ .unknown →
    (union limit t u).Ascends ∧ (union limit t u).members = t.members ⊔ u.members
  shift_unknown : ∀ d, t.shift d = .unknown ↔ t = .unknown ∨
    ∃ s : Finset UInt64, t.members = s ∧ ∃ v ∈ s, UInt64.size ≤ v.toNat + d.toNat
  shift_known : ∀ d, t.shift d ≠ .unknown →
    (t.shift d).Ascends ∧ ∃ s : Finset UInt64, t.members = s ∧ (t.shift d).members = (s.image (· + d) : Finset UInt64)
  subseteq : t.subseteq u = true ↔ t.members ≤ u.members

/-- Bounded unions form a commutative semigroup, and all operations respect inclusion. -/
structure Ordered (limit : Int) (t u : Times) : Prop where
  union_comm : union limit t u = union limit u t
  union_assoc : ∀ v : Times, v.Ascends → union limit (union limit t u) v = union limit t (union limit u v)
  union_mono : ∀ t' u' : Times, t'.Ascends → u'.Ascends → t.subseteq t' = true → u.subseteq u' = true →
    (union limit t u).subseteq (union limit t' u') = true
  shiftBy_mono : ∀ status durations t', t.subseteq u = true → t.shiftBy status durations limit = .ok t' →
    ∃ u', u.shiftBy status durations limit = .ok u' ∧ t'.subseteq u' = true

theorem exact_of_ascends (ht : t.Ascends) (hu : u.Ascends) (limit : Int) : Exact limit t u where
  union_unknown := by
    have hsup : t.members ⊔ u.members = ⊤ ↔ t = .unknown ∨ u = .unknown := by
      cases t <;> cases u <;> simp [← WithTop.coe_sup]
    rw [← members_eq_top, members_union ht hu, ceiling_eq_top, hsup, or_assoc]
    rfl
  union_known h := by
    refine ⟨ht.union hu limit, ?_⟩
    have hmembers := members_union ht hu limit
    rw [hmembers, ceiling_eq_self]
    rwa [← hmembers, ne_eq, members_eq_top]
  shift_unknown d := by
    rw [shift_eq_unknown]
    cases t with
    | unknown => simp
    | known ts => simp
  shift_known d h := by
    refine ⟨ht.shift d, ?_⟩
    cases hshift : t.shift d with
    | unknown => exact absurd hshift h
    | known values =>
      obtain ⟨ts, rfl, rfl, -⟩ := Times.shift_eq_known hshift
      refine ⟨ts.toFinset, rfl, ?_⟩
      rw [members_known]
      congr 1
      ext x
      simp only [List.mem_toFinset, List.mem_map, Finset.mem_image]
  subseteq := subseteq_iff_members_le ht hu

/-- On ascending sets of times, union, shift and inclusion are those of the sets, apart from what is given up: a union
    with members, more than the limit allows, and a shift in which a time leaves the 64 bits. Unions commute and
    associate, and unions and steps respect inclusion. All times of an analysis are kept ascending and within its
    limit. -/
theorem exact_bounded_sets (limit : Int) (ht : t.Ascends) (hu : u.Ascends) :
    Exact limit t u ∧ Ordered limit t u ∧
      ∀ {χ : Type} [CacheModel χ] (timing : Traced.Timing) (initial : χ) (s : Traced χ), 1 ≤ timing.maxTimes →
        (Traced.domain timing initial).Reachable s →
          s.times.Ascends ∧ ∀ ts, s.times = .known ts → ts.length ≤ timing.maxTimes := by
  refine ⟨exact_of_ascends ht hu limit, ⟨union_comm ht hu limit, fun v hv => union_assoc ht hu hv limit, ?_, ?_⟩, ?_⟩
  · exact fun t' u' ht' hu' htt' huu' => union_mono ht hu ht' hu' htt' huu' limit
  · exact fun status durations t' h ht' => shiftBy_mono ht hu h ht'
  · intro χ _ timing initial s hlimit hs
    obtain ⟨hascends, hlength⟩ := Traced.bounded_times hlimit hs
    exact ⟨hascends, hlength⟩

/-- The domain of an empty cache of two lines that keeps no more than one time. -/
def oneTime : Domain Traced.Memory (Traced AgeCache) :=
  Traced.domain { durations := { hit := 3, miss := 20, noAccess := 1 }, maxTimes := 1 }
    (.initial { geometry := .pair, initiallyEmpty := true })

/-- Two sets that share a time. Their union is given up where two times are allowed; shifted by 2⁶⁴ - 4 the second set
    is given up and the first is not. A miss takes the domain of one time to a set within its limit. -/
theorem overlapping_sets_exact :
    (known [1, 3]).Ascends ∧ (known [3, 5]).Ascends ∧
      Exact 2 (known [1, 3]) (known [3, 5]) ∧ Ordered 3 (known [3, 5]) (known [1, 3]) ∧
      union 2 (known [1, 3]) (known [3, 5]) = .unknown ∧
      union 3 (known [3, 5]) (known [1, 3]) = union 3 (known [1, 3]) (known [3, 5]) ∧
      (known [3, 5]).shift 18446744073709551612 = .unknown ∧
      (known [1, 3]).shift 18446744073709551612 = .known [18446744073709551613, 18446744073709551615] ∧
      ∃ s, oneTime.Reachable s ∧ s.times = .known [20] ∧ s.times.Ascends ∧
        ∀ ts, s.times = .known ts → (ts.length : Int) ≤ 1 := by
  have hleft : (known [1, 3]).Ascends := by simp [Ascends]
  have hright : (known [3, 5]).Ascends := by simp [Ascends]
  obtain ⟨hexact, -, hbounded⟩ := exact_bounded_sets 2 hleft hright
  obtain ⟨hexact', hordered, -⟩ := exact_bounded_sets 3 hright hleft
  obtain ⟨s, m, hrun, htimes⟩ : ∃ s m, oneTime.touch oneTime.init 0 {} = .ok s m ∧ s.times = .known [20] :=
    ⟨_, _, rfl, by decide +kernel⟩
  have hs : oneTime.Reachable s := .touch .init hrun
  refine ⟨hleft, hright, hexact, hordered, ?_, hordered.union_comm, ?_, by decide, s, hs, htimes, ?_⟩
  · exact hexact.union_unknown.mpr (.inr (.inr ⟨{1, 3, 5}, by decide +kernel, by decide +kernel, by decide +kernel⟩))
  · exact (hexact'.shift_unknown _).mpr (.inr ⟨_, rfl, 5, by decide +kernel, by decide +kernel⟩)
  · exact hbounded _ _ s (by decide) hs

/-- The empty set is kept even where less than no time is allowed. -/
theorem empty_union_known :
    ¬ ∀ (limit : Int) (t u : Times), t.Ascends → u.Ascends →
      (union limit t u = .unknown ↔ t = .unknown ∨ u = .unknown ∨
        ∃ s : Finset UInt64, t.members ⊔ u.members = s ∧ limit < s.card) := by
  intro h
  have hknown : union (-1) (known []) (known []) = known [] := by decide +kernel
  have hempty := (h (-1) (known []) (known []) List.Pairwise.nil List.Pairwise.nil).mpr
    (.inr (.inr ⟨∅, by simp, by simp⟩))
  rw [hknown] at hempty
  cases hempty

end Times

end CacheTiming
