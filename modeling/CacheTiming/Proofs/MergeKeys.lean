import CacheTiming.Proofs.HashConsing
import Mathlib.Data.Finset.Dedup
import Mathlib.Data.Finset.Lattice.Lemmas

/-! Merge keys as sets.

A merge key is the strictly ascending list of the ids in a set. Adding an id, telling two keys apart and
looking for a part of a key are then the operations on the sets, and two keys stand to each other in
exactly one of the four ways that a join distinguishes. -/

namespace CacheTiming

namespace Ascending

variable {α : Type} [DecidableEq α] {x : α} {xs ys : List α}

/-! ### Members -/

theorem toFinset_subset_iff : xs.toFinset ⊆ ys.toFinset ↔ xs ⊆ ys := by
  simp only [Finset.subset_iff, List.mem_toFinset, List.subset_def]

theorem toFinset_insert [LE α] [DecidableLE α] : (insert xs x).toFinset = xs.toFinset ∪ {x} := by
  ext z
  simp only [List.mem_toFinset, mem_insert, Finset.mem_union, Finset.mem_singleton]
  exact or_comm

section Sets
variable [LT α] [LE α] [Std.IsLinearOrder α] [Std.LawfulOrderLT α]

/-- A set has one ascending list. -/
theorem eq_iff_toFinset_eq (hxs : xs.Pairwise (· < ·)) (hys : ys.Pairwise (· < ·)) :
    xs = ys ↔ xs.toFinset = ys.toFinset := by
  refine ⟨fun h => h ▸ rfl, fun h => ?_⟩
  have hsubset : xs ⊆ ys := toFinset_subset_iff.mp h.subset
  have hback : ys ⊆ xs := toFinset_subset_iff.mp h.symm.subset
  exact hsubset.antisymm_of_pairwise hxs hys hback

theorem strictSubset_iff_ssubset [DecidableLT α] (hxs : xs.Pairwise (· < ·)) (hys : ys.Pairwise (· < ·)) :
    strictSubset xs ys = true ↔ xs.toFinset ⊂ ys.toFinset := by
  rw [strictSubset_iff hxs hys, Finset.ssubset_def, toFinset_subset_iff, toFinset_subset_iff]

end Sets

/-! ### Comparisons -/

/-- How one set can stand to another. -/
inductive Comparison where
  | same
  | within
  | around
  | apart

namespace Comparison

variable [LT α] [DecidableLT α] {c d : Comparison}

/-- The first list is the second, is found to be a proper part of it, or the other way round, or neither
    has all members of the other. -/
def Holds (xs ys : List α) : Comparison → Prop
  | .same => Ascending.same xs ys = true
  | .within => strictSubset xs ys = true
  | .around => strictSubset ys xs = true
  | .apart => ¬ xs ⊆ ys ∧ ¬ ys ⊆ xs

/-- The comparison of the second set with the first. -/
def swap : Comparison → Comparison
  | .same => .same
  | .within => .around
  | .around => .within
  | .apart => .apart

theorem Holds.swap (h : c.Holds xs ys) : c.swap.Holds ys xs := by
  cases c with
  | same => exact same_iff.mpr (same_iff.mp h).symm
  | within => exact h
  | around => exact h
  | apart => exact And.symm h

variable [LE α] [Std.IsLinearOrder α] [Std.LawfulOrderLT α]

/-- A comparison says whether the first set is included in the second. -/
theorem Holds.subset_iff (hxs : xs.Pairwise (· < ·)) (hys : ys.Pairwise (· < ·)) (h : c.Holds xs ys) :
    xs ⊆ ys ↔ c = .same ∨ c = .within := by
  cases c with
  | same =>
    have h : xs = ys := same_iff.mp h
    simp [h]
  | within => simp [((strictSubset_iff hxs hys).mp h).1]
  | around => simp [((strictSubset_iff hys hxs).mp h).2]
  | apart => simp [h.1]

theorem Holds.unique (hxs : xs.Pairwise (· < ·)) (hys : ys.Pairwise (· < ·)) (hc : c.Holds xs ys)
    (hd : d.Holds xs ys) : c = d := by
  -- Both comparisons answer the two inclusions alike, and no two constructors do.
  have hsubset := (hc.subset_iff hxs hys).symm.trans (hd.subset_iff hxs hys)
  have hback := (hc.swap.subset_iff hys hxs).symm.trans (hd.swap.subset_iff hys hxs)
  cases c <;> cases d <;> simp [Comparison.swap] at hsubset hback ⊢

theorem existsUnique_holds (hxs : xs.Pairwise (· < ·)) (hys : ys.Pairwise (· < ·)) :
    ∃! c : Comparison, c.Holds xs ys := by
  suffices h : ∃ c : Comparison, c.Holds xs ys by
    obtain ⟨c, hc⟩ := h
    exact ⟨c, hc, fun d hd => hd.unique hxs hys hc⟩
  rcases compare_cases hxs hys with hsame | hwithin | haround | hapart
  · exact ⟨.same, same_iff.mpr hsame⟩
  · exact ⟨.within, hwithin⟩
  · exact ⟨.around, haround⟩
  · exact ⟨.apart, hapart⟩

end Comparison

end Ascending

namespace Store

open Ascending (Comparison)

/-- On strictly ascending lists of ids, adding an id gives the strictly ascending list of the larger set, going through
    both lists decides whether the sets are equal, and the scan decides proper inclusion. Exactly one comparison holds of two such
    lists, and so of the merge keys of any two nodes, whatever a store was asked for. -/
theorem merge_keys_as_sets {xs ys : List NodeId} (hxs : xs.Pairwise (· < ·)) (hys : ys.Pairwise (· < ·)) :
    (∀ x, (Ascending.insert xs x).Pairwise (· < ·) ∧ (Ascending.insert xs x).toFinset = xs.toFinset ∪ {x}) ∧
    (Ascending.same xs ys = true ↔ xs.toFinset = ys.toFinset) ∧
    (Ascending.strictSubset xs ys = true ↔ xs.toFinset ⊂ ys.toFinset) ∧
    (∃! c : Comparison, c.Holds xs ys) ∧
    ∀ requests s, Request.Timely {} requests → (Request.serve {} requests).store = s →
      ∀ a < s.size, ∀ b < s.size, ∃! c : Comparison, c.Holds (s.node a).ancestors (s.node b).ancestors := by
  refine ⟨fun x => ⟨Ascending.pairwise_insert hxs, Ascending.toFinset_insert⟩, ?_, ?_, ?_, ?_⟩
  · exact Ascending.same_iff.trans (Ascending.eq_iff_toFinset_eq hxs hys)
  · exact Ascending.strictSubset_iff_ssubset hxs hys
  · exact Comparison.existsUnique_holds hxs hys
  · rintro requests s htimely rfl a ha b hb
    have hfiled : (Request.serve {} requests).store.Filed := filed_initial.serve htimely
    exact Comparison.existsUnique_holds (hfiled.ascending ha) (hfiled.ascending hb)

/-- The id 5 goes between 3 and 8, and what comes of it includes the list properly. The merge keys of two placeholders
    of the sample compare in one way; one is part of the other. -/
theorem sample_keys_as_sets :
    [1, 3, 8].Pairwise (· < ·) ∧ [1, 3, 5, 8].Pairwise (· < ·) ∧
      (Ascending.insert [1, 3, 8] 5).Pairwise (· < ·) ∧ (Ascending.insert [1, 3, 8] 5).toFinset = {1, 3, 5, 8} ∧
      Ascending.same [1, 3, 8] [1, 3, 5, 8] = false ∧ Ascending.strictSubset [1, 3, 8] [1, 3, 5, 8] = true ∧
      (∃! c : Comparison, c.Holds [1, 3, 8] [1, 3, 5, 8]) ∧
      ∃ s, Request.Timely {} Request.sample ∧ (Request.serve {} Request.sample).store = s ∧ s.size = 8 ∧
        (s.node 4).ancestors = [2, 3] ∧ (s.node 5).ancestors = [1, 2, 3] ∧
        ∃! c : Comparison, c.Holds (s.node 4).ancestors (s.node 5).ancestors := by
  have hfirst : [1, 3, 8].Pairwise (· < ·) := by decide
  have hsecond : [1, 3, 5, 8].Pairwise (· < ·) := by decide
  have htimely : Request.Timely {} Request.sample := by decide +kernel
  have hsize : (Request.serve {} Request.sample).store.size = 8 := by decide +kernel
  obtain ⟨hinsert, hsame, hsubset, hone, hstores⟩ := merge_keys_as_sets hfirst hsecond
  refine ⟨hfirst, hsecond, (hinsert 5).1, ?_, ?_, hsubset.mpr (by decide), hone,
    _, htimely, rfl, hsize, by decide +kernel, by decide +kernel, ?_⟩
  · rw [(hinsert 5).2]
    decide
  · rw [← Bool.not_eq_true, hsame]
    decide
  · exact hstores _ _ htimely rfl 4 (by rw [hsize]; decide) 5 (by rw [hsize]; decide)

end Store

end CacheTiming
