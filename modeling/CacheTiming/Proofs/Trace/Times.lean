import CacheTiming.Trace.Times
import CacheTiming.Proofs.Ascending
import CacheTiming.Proofs.Trace.Observation

/-! Sets of times admit the clocks of machines.

A known set admits a machine whose clock is one of its times and has never wrapped around; an unknown
set admits every machine. Shifting a set follows the clock: if a sum does not fit 64 bits, the set
becomes unknown, also where the clock adds the parts of the sum in another order. -/

namespace CacheTiming

namespace Times

/-- Whether a machine's time is among the possible ones. A known set admits no clock that has wrapped
    around. -/
def Admits (t : Times) (m : Machine) : Prop :=
  ∀ values, t = .known values → m.overflow = false ∧ m.clock ∈ values

variable {t u : Times} {m : Machine} {limit : Int}

theorem Admits.overflow (h : t.Admits m) (ho : m.overflow = true) : t = .unknown := by
  cases t with
  | unknown => rfl
  | known values =>
    have := (h values rfl).1
    simp [ho] at this

/-- A set that is still known after a shift was known before, and no sum left the 64 bits. -/
theorem shift_eq_known {cost : UInt64} {values : List UInt64} (h : t.shift cost = .known values) :
    ∃ before, t = .known before ∧ values = before.map (· + cost) ∧
      ∀ v ∈ before, v.toNat + cost.toNat < UInt64.size := by
  cases t with
  | unknown => cases h
  | known before =>
    simp only [shift] at h
    split at h
    · cases h
    · rename_i hfit
      cases h
      refine ⟨before, rfl, rfl, fun v hv => ?_⟩
      simp only [addTimes, List.any_eq_true, not_exists, not_and, decide_eq_true_eq, Nat.not_le] at hfit
      exact hfit v hv

theorem Admits.shift (h : t.Admits m) (o : Observation) (cost : UInt64) :
    (t.shift cost).Admits (m.observe o cost) := by
  intro values hv
  obtain ⟨before, ht, rfl, hfit⟩ := shift_eq_known hv
  obtain ⟨ho, hm⟩ := h before ht
  have := hfit _ hm
  refine ⟨?_, List.mem_map_of_mem hm⟩
  simp only [Machine.observe, addTimes, ho, Bool.false_or, decide_eq_false_iff_not, Nat.not_le]
  exact this

/-- Letting time pass: the set adds the time first and the cost of a step then, the clock their sum. -/
theorem Admits.elapse (h : t.Admits m) (d : Durations) (time : UInt64) :
    ((t.shift time).shift d.noAccess).Admits (m.elapse d time) := by
  intro values hv
  obtain ⟨middle, hmiddle, rfl, hfit₂⟩ := shift_eq_known hv
  obtain ⟨before, ht, rfl, hfit₁⟩ := shift_eq_known hmiddle
  obtain ⟨ho, hm⟩ := h before ht
  have h₁ := hfit₁ _ hm
  have h₂ := hfit₂ _ (List.mem_map_of_mem hm)
  have hsum : (m.clock + time).toNat = m.clock.toNat + time.toNat := by
    rw [UInt64.toNat_add]
    exact Nat.mod_eq_of_lt h₁
  have hcost : (time + d.noAccess).toNat = time.toNat + d.noAccess.toNat := by
    rw [UInt64.toNat_add]
    exact Nat.mod_eq_of_lt (by simp only [UInt64.size] at h₂; omega)
  constructor
  · have hcost' : ¬ UInt64.size ≤ time.toNat + d.noAccess.toNat := by omega
    have hclock : ¬ UInt64.size ≤ m.clock.toNat + (time + d.noAccess).toNat := by omega
    simp [Machine.elapse, Machine.observe, addTimes, ho, hcost', hclock, -UInt64.toNat_add]
  · rw [List.map_map]
    refine List.mem_map.mpr ⟨m.clock, hm, ?_⟩
    simp only [Function.comp_apply, Machine.elapse, Machine.observe, addTimes, UInt64.add_assoc]

/-- The times that are merged become unknown if one of them comes when there are as many as the limit allows. -/
theorem merge_eq (limit : Int) (merged : Array UInt64) (ts us : List UInt64) :
    merge limit merged ts us =
      if Ascending.union ts us ≠ [] ∧ limit < merged.size + (Ascending.union ts us).length then .unknown
      else .known (merged.toList ++ Ascending.union ts us) := by
  fun_induction merge limit merged ts us with
  | case1 merged ts us h =>
    rw [Ascending.union_of_none h, if_neg (fun h => h.1 rfl), List.append_nil]
  | case2 merged ts us t ts' us' h more hlimit =>
    have hmore : more.size = merged.size + 1 := Array.size_push ..
    have hlong : limit < merged.size + ((Ascending.union ts' us').length + 1 : Nat) := by omega
    rw [Ascending.union_of_some h, if_pos ⟨List.cons_ne_nil _ _, hlong⟩]
  | case3 merged ts us t ts' us' h more hlimit ih =>
    have hmore : more.size = merged.size + 1 := Array.size_push ..
    -- One time is within the limit, so if they exceed it there is another.
    have hexceeds : (t :: Ascending.union ts' us' ≠ [] ∧
        limit < merged.size + ((Ascending.union ts' us').length + 1 : Nat)) ↔
        Ascending.union ts' us' ≠ [] ∧ limit < more.size + (Ascending.union ts' us').length := by
      constructor
      · rintro ⟨-, hlong⟩
        exact ⟨List.ne_nil_of_length_pos (by omega), by omega⟩
      · rintro ⟨-, hlong⟩
        exact ⟨List.cons_ne_nil _ _, by omega⟩
    rw [ih, Ascending.union_of_some h, List.length_cons]
    simp only [hexceeds, more, Array.toList_push, List.append_assoc, List.singleton_append]

/-- The loop that merges two sets gives up if and only if it merges a time and their union is too long. -/
theorem union_known (limit : Int) (ts us : List UInt64) :
    union limit (.known ts) (.known us) =
      if Ascending.union ts us ≠ [] ∧ limit < (Ascending.union ts us).length then .unknown
      else .known (Ascending.union ts us) := by
  simpa [union] using merge_eq limit #[] ts us

/-- A union that is known consists of two known sets. -/
theorem union_eq_known {values : List UInt64} (h : union limit t u = .known values) :
    ∃ ts us, t = .known ts ∧ u = .known us ∧ values = Ascending.union ts us := by
  cases t with
  | unknown => cases h
  | known ts =>
    cases u with
    | unknown => cases h
    | known us =>
      rw [union_known] at h
      split at h
      · cases h
      · cases h
        exact ⟨ts, us, rfl, rfl, rfl⟩

theorem Admits.union_left (h : t.Admits m) (u : Times) : (union limit t u).Admits m := by
  intro values hv
  obtain ⟨ts, us, rfl, rfl, rfl⟩ := union_eq_known hv
  obtain ⟨ho, hm⟩ := h ts rfl
  exact ⟨ho, Ascending.mem_union.mpr (Or.inl hm)⟩

theorem Admits.union_right (h : u.Admits m) (t : Times) : (union limit t u).Admits m := by
  intro values hv
  obtain ⟨ts, us, rfl, rfl, rfl⟩ := union_eq_known hv
  obtain ⟨ho, hm⟩ := h us rfl
  exact ⟨ho, Ascending.mem_union.mpr (Or.inr hm)⟩

theorem Admits.of_subseteq (h : t.Admits m) (hs : t.subseteq u = true) : u.Admits m := by
  intro us hu
  subst hu
  cases t with
  | unknown => cases hs
  | known ts =>
    obtain ⟨ho, hm⟩ := h ts rfl
    exact ⟨ho, Ascending.mem_of_subset hs hm⟩

/-- The times after a step admit each machine that makes an observation that the status allows. -/
theorem Admits.shiftBy (h : t.Admits m) {status : Status} {d : Durations} (hu : t.shiftBy status d limit = .ok u)
    {o : Observation} (ho : o ∈ status.observations) : u.Admits (m.observe o (d.cost o)) := by
  cases status with
  | hit =>
    cases hu
    obtain rfl := List.mem_singleton.mp ho
    exact h.shift _ _
  | miss =>
    cases hu
    obtain rfl := List.mem_singleton.mp ho
    exact h.shift _ _
  | noAccess =>
    cases hu
    obtain rfl := List.mem_singleton.mp ho
    exact h.shift _ _
  | hitOrMiss =>
    cases hu
    rcases List.mem_cons.mp ho with rfl | ho
    · exact (h.shift _ _).union_left _
    · obtain rfl := List.mem_singleton.mp ho
      exact (h.shift _ _).union_right _
  | none => cases hu
  | unknown => cases hu

theorem shiftBy_status (t : Times) (o : Observation) (d : Durations) (limit : Int) :
    t.shiftBy o.status d limit = .ok (t.shift (d.cost o)) := by
  cases o <;> rfl

theorem shift_singleton (v cost : UInt64) :
    (known [v]).shift cost = if UInt64.size ≤ v.toNat + cost.toNat then unknown else known [v + cost] := by
  by_cases h : UInt64.size ≤ v.toNat + cost.toNat
  · simp [shift, addTimes, h]
  · simp [shift, addTimes, h]

end Times

/-! ### The times of one machine -/

namespace Machine

/-- The time of a machine, unless its clock has wrapped around. -/
def times (m : Machine) : Times := if m.overflow then .unknown else .known [m.clock]

theorem times_observe (m : Machine) (o : Observation) (cost : UInt64) :
    (m.observe o cost).times = m.times.shift cost := by
  cases ho : m.overflow with
  | true => simp [times, observe, ho, Times.shift]
  | false =>
    rw [times, times, ho, if_neg Bool.false_ne_true, Times.shift_singleton]
    simp [observe, addTimes, ho]

/-- Both ways to add a time and the cost of a step leave the 64 bits exactly if the whole sum does. -/
theorem times_elapse (m : Machine) (d : Durations) (time : UInt64) :
    (m.elapse d time).times = (m.times.shift time).shift d.noAccess := by
  cases ho : m.overflow with
  | true => simp [times, elapse, observe, ho, Times.shift]
  | false =>
    have hclock : (m.clock + time).toNat = (m.clock.toNat + time.toNat) % UInt64.size := UInt64.toNat_add ..
    have hcost : (time + d.noAccess).toNat = (time.toNat + d.noAccess.toNat) % UInt64.size := UInt64.toNat_add ..
    have hover : (m.elapse d time).overflow = true ↔
        UInt64.size ≤ time.toNat + d.noAccess.toNat ∨ UInt64.size ≤ m.clock.toNat + (time + d.noAccess).toNat := by
      simp only [elapse, observe, addTimes, ho, Bool.false_or, Bool.or_eq_true, decide_eq_true_eq]
      exact or_congr_right decide_eq_true_iff
    have hsum : (m.elapse d time).overflow = true ↔ UInt64.size ≤ m.clock.toNat + time.toNat + d.noAccess.toNat := by
      rw [hover, hcost]
      simp only [UInt64.size]
      omega
    rw [times, times, ho, if_neg Bool.false_ne_true, Times.shift_singleton]
    by_cases hfirst : UInt64.size ≤ m.clock.toNat + time.toNat
    · rw [if_pos hfirst, if_pos (hsum.mpr (by omega))]
      rfl
    · rw [if_neg hfirst, Times.shift_singleton, hclock, Nat.mod_eq_of_lt (Nat.not_le.mp hfirst)]
      simp only [hsum]
      split
      · rfl
      · simp [elapse, observe, addTimes, UInt64.add_assoc]

end Machine

end CacheTiming
