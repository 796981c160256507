import CacheTiming.Proofs.Cache.Lattice
import CacheTiming.Proofs.Fixpoint.Convergence

/-! Analyses of the cache alone converge.

There are finitely many blocks, and the range of each can become wider only so often. Blocks without an
entry keep the range that they had at the start, so a cache that does not include another one has a
narrower range for some block. -/

namespace CacheTiming

namespace AgeRange

variable {r s : AgeRange}

/-- How wide a range is, measured by both its ends so that a join never makes it narrower. -/
def width (r : AgeRange) : Nat := r.hi.toNat + (255 - r.lo.toNat)

theorem width_le (r : AgeRange) : r.width ≤ 510 := by
  have := r.hi.toNat_lt
  unfold width
  omega

theorem width_le_join (r s : AgeRange) : r.width ≤ (r.join s).width := by
  unfold width join
  simp only [UInt8.lt_iff_toNat_lt]
  split <;> split <;> omega

theorem width_lt_join (h : s.within r = false) : r.width < (r.join s).width := by
  have hhi := s.hi.toNat_lt
  have hlo := r.lo.toNat_lt
  simp only [within, Bool.and_eq_false_iff, decide_eq_false_iff_not, UInt8.le_iff_toNat_le] at h
  unfold width join
  simp only [UInt8.lt_iff_toNat_lt]
  split <;> split <;> omega

end AgeRange

namespace AgeCache

variable {c d : AgeCache}

/-- The sum of the widths of the ranges of all blocks. -/
def height (c : AgeCache) : Nat := ∑ block ∈ Finset.range UInt64.size, (c.age block.toUInt64).width

theorem height_le (c : AgeCache) : c.height ≤ UInt64.size * 510 := by
  have h := Finset.sum_le_card_nsmul (Finset.range UInt64.size) (fun block => (c.age block.toUInt64).width) 510
    fun _ _ => AgeRange.width_le _
  rw [Finset.card_range, smul_eq_mul] at h
  exact h

theorem height_le_join (c d : AgeCache) : c.height ≤ (c.join d).height := by
  refine Finset.sum_le_sum fun block _ => ?_
  rw [age_join]
  exact AgeRange.width_le_join _ _

theorem exists_not_within (hdefault : d.default = c.default) (h : d.subseteq c = false) :
    ∃ block, (d.age block).within (c.age block) = false := by
  by_contra hall
  have hwithin : ∀ block, d.age block ≤ c.age block := fun block =>
    Bool.eq_true_of_not_eq_false fun hblock => hall ⟨block, hblock⟩
  rw [subseteq_iff.mpr ⟨hdefault.le, hwithin⟩] at h
  cases h

/-- A cache becomes higher by a join with one that it does not include. -/
theorem height_lt_join (hdefault : d.default = c.default) (h : d.subseteq c = false) : c.height < (c.join d).height := by
  obtain ⟨block, hblock⟩ := exists_not_within hdefault h
  refine Finset.sum_lt_sum (fun x _ => ?_) ⟨block.toNat, Finset.mem_range.mpr block.toNat_lt, ?_⟩
  · rw [age_join]
    exact AgeRange.width_le_join _ _
  · rw [age_join, Nat.toUInt64_eq, UInt64.ofNat_toNat]
    exact AgeRange.width_lt_join hblock

theorem eq_touch {o : Outcomes AgeCache} {address : UInt64} (h : CacheModel.touch c address = .ok o) :
    o = c.touch (c.geometry.block address) := by
  have h : touchAddress c address = .ok o := h
  unfold touchAddress at h
  split at h
  · cases h
  · dsimp only at h
    split at h
    · cases h
    · cases h
      rfl

theorem default_touch {block : UInt64} (hit : Bool) (h : (c.touch block).after hit = some d) :
    d.default = c.default := by
  obtain ⟨-, rfl⟩ := after_touch_eq_some.mp h
  exact default_access ..

theorem default_join_of_eq {r : AgeRange} (hc : c.default = r) (hd : d.default = r) : (c.join d).default = r := by
  rw [default_join, hc, hd]
  exact sup_idem r

theorem default_resolved {block : UInt64} {status : Status} (h : (c.touch block).Resolved status d) :
    d.default = c.default := by
  cases h with
  | hit hhit hmiss => exact default_touch true hhit
  | miss hhit hmiss => exact default_touch false hmiss
  | both hhit hmiss hjoin =>
    cases hjoin
    exact default_join_of_eq (default_touch true hhit) (default_touch false hmiss)

end AgeCache

/-- The range of blocks that have no entry is the same throughout an analysis. -/
theorem CacheOnly.finiteHeight (initial : AgeCache) :
    (domain initial).FiniteHeight (fun c => c.default = initial.default) AgeCache.height (UInt64.size * 510) where
  init := rfl
  height_le {c} _ := c.height_le
  touch {m m' c r address} hc h := by
    obtain ⟨o, status, ho, hr⟩ := touch_eq_ok h
    cases AgeCache.eq_touch ho
    exact (AgeCache.default_resolved hr).trans hc
  elapse hc h := by
    cases h
    exact hc
  join {c d} m hc hd := ⟨c.join d, m, rfl, AgeCache.default_join_of_eq hc hd, c.height_le_join d⟩
  widen {c d} m hc hd := by
    refine ⟨c.join d, m, rfl, AgeCache.default_join_of_eq hc hd, fun {n n'} h => ?_⟩
    have h : Action.ofFault (CacheModel.subseteq d c) n = .ok false n' := h
    exact AgeCache.height_lt_join (hd.trans hc.symm) (Except.ok.inj (Action.ofFault_eq_ok.mp h).1)
  subseteq _ _ _ := ⟨_, _, rfl⟩

end CacheTiming
