import CacheTiming.Ascending
import Mathlib.Data.List.Sort

/-! Lists that are built by inserting, comparing and merging.

What their members are needs no order. That an insertion keeps a list ascending rests on the bisection,
which finds the place where the members below the new one end. The scan through both lists misses no
inclusion if they are ascending. Taking the least member of both again and again gives their union, which is
ascending again. -/

namespace CacheTiming.Ascending

variable {α : Type} {x y z : α} {xs ys : List α}

theorem mem_insert [LE α] [DecidableLE α] [DecidableEq α] : z ∈ insert xs x ↔ z = x ∨ z ∈ xs := by
  unfold insert
  dsimp only
  split
  · rename_i h
    have hx : x ∈ xs := List.mem_of_getElem? h
    exact ⟨Or.inr, fun h => h.elim (fun h => h ▸ hx) id⟩
  · have h : z ∈ xs ↔ z ∈ xs.take (place xs x 0 xs.length) ∨ z ∈ xs.drop (place xs x 0 xs.length) := by
      rw [← List.mem_append, List.take_append_drop]
    rw [List.mem_append, List.mem_cons, h]
    exact or_left_comm

section Place
variable [LT α] [LE α] [Std.IsLinearOrder α] [Std.LawfulOrderLT α]

theorem le_of_getElem? (h : xs.Pairwise (· < ·)) {i j : Nat} {y : α} (hij : i ≤ j) (hx : xs[i]? = some x)
    (hy : xs[j]? = some y) : x ≤ y := by
  obtain ⟨hi, rfl⟩ := List.getElem?_eq_some_iff.mp hx
  obtain ⟨hj, rfl⟩ := List.getElem?_eq_some_iff.mp hy
  rcases Nat.lt_or_eq_of_le hij with hlt | rfl
  · exact Std.le_of_lt (List.pairwise_iff_getElem.mp h i j hi hj hlt)
  · exact Std.le_refl _

/-- The members in front of the place `i` are below `x`, those from the place `j` on are not. -/
structure Splits (xs : List α) (x : α) (i j : Nat) : Prop where
  front : ∀ {k y}, k < i → xs[k]? = some y → y < x
  back : ∀ {k y}, j ≤ k → xs[k]? = some y → x ≤ y

variable [DecidableLE α]

theorem splits_place (h : xs.Pairwise (· < ·)) {low width : Nat} (hlen : low + width ≤ xs.length)
    (hs : Splits xs x low (low + width)) : Splits xs x (place xs x low width) (place xs x low width) := by
  fun_induction place xs x low width with
  | case1 low => exact hs
  | case2 low width hwidth half hle ih =>
    obtain ⟨y, hy⟩ : ∃ y, xs[low + half]? = some y := ⟨_, List.getElem?_eq_getElem (by omega)⟩
    rw [hy, Option.all_some, decide_eq_true_iff] at hle
    refine ih (by omega) ⟨hs.front, fun hk hz => ?_⟩
    exact Std.le_trans hle (le_of_getElem? h hk hy hz)
  | case3 low width hwidth half hnot ih =>
    obtain ⟨y, hy⟩ : ∃ y, xs[low + half]? = some y := ⟨_, List.getElem?_eq_getElem (by omega)⟩
    rw [hy, Option.all_some, decide_eq_true_iff, Std.not_le] at hnot
    refine ih (by omega) ⟨fun hk hz => ?_, fun hk hz => hs.back (by omega) hz⟩
    exact Std.lt_of_le_of_lt (le_of_getElem? h (by omega) hz hy) hnot

theorem splits_place_length (h : xs.Pairwise (· < ·)) :
    Splits xs x (place xs x 0 xs.length) (place xs x 0 xs.length) := by
  refine splits_place h (by omega) ⟨fun hk => absurd hk (Nat.not_lt_zero _), fun hk hy => ?_⟩
  obtain ⟨hlt, -⟩ := List.getElem?_eq_some_iff.mp hy
  omega

theorem pairwise_insert [DecidableEq α] (h : xs.Pairwise (· < ·)) : (insert xs x).Pairwise (· < ·) := by
  have hs : Splits xs x (place xs x 0 xs.length) (place xs x 0 xs.length) := splits_place_length h
  unfold insert
  dsimp only
  generalize place xs x 0 xs.length = i at hs
  split
  · exact h
  · rename_i hnew
    have hfront : ∀ y ∈ xs.take i, y < x := by
      intro y hy
      obtain ⟨k, hk, rfl⟩ := List.mem_take_iff_getElem.mp hy
      exact hs.front (by omega) (List.getElem?_eq_getElem _)
    have hback : ∀ y ∈ xs.drop i, x < y := by
      intro y hy
      obtain ⟨k, hk, rfl⟩ := List.mem_drop_iff_getElem.mp hy
      have hi : xs[i]? = some xs[i] := List.getElem?_eq_getElem (by omega)
      have hlt : x < xs[i] := Std.lt_of_le_of_ne (hs.back (Nat.le_refl i) hi) fun heq => hnew (heq ▸ hi)
      exact Std.lt_of_lt_of_le hlt (le_of_getElem? h (Nat.le_add_right i k) hi (List.getElem?_eq_getElem _))
    refine List.pairwise_append.mpr ⟨h.take, List.pairwise_cons.mpr ⟨hback, h.drop⟩, fun y hy z hz => ?_⟩
    rcases List.mem_cons.mp hz with rfl | hz
    · exact hfront y hy
    · exact Std.lt_trans (hfront y hy) (hback z hz)

/-- The bisection ends at a member that is there already. -/
theorem insert_of_mem [DecidableEq α] (h : xs.Pairwise (· < ·)) (hx : x ∈ xs) : insert xs x = xs := by
  have hs : Splits xs x (place xs x 0 xs.length) (place xs x 0 xs.length) := splits_place_length h
  obtain ⟨k, hk⟩ := List.mem_iff_getElem?.mp hx
  unfold insert
  dsimp only
  generalize place xs x 0 xs.length = i at hs
  have hik : i ≤ k := Nat.le_of_not_lt fun hlt => Std.lt_irrefl (hs.front hlt hk)
  obtain ⟨y, hy⟩ : ∃ y, xs[i]? = some y := by
    obtain ⟨hlt, -⟩ := List.getElem?_eq_some_iff.mp hk
    exact ⟨_, List.getElem?_eq_getElem (Nat.lt_of_le_of_lt hik hlt)⟩
  have hyx : y = x := Std.le_antisymm (le_of_getElem? h hik hy hk) (hs.back (Nat.le_refl i) hy)
  rw [if_pos (hyx ▸ hy)]

end Place

theorem perm_insert [LE α] [DecidableLE α] [DecidableEq α] (hx : x ∉ xs) : (insert xs x).Perm (x :: xs) := by
  unfold insert
  dsimp only
  rw [if_neg fun h => hx (List.mem_of_getElem? h)]
  refine List.perm_middle.trans ?_
  rw [List.take_append_drop]

theorem mem_of_subset [LT α] [DecidableLT α] [DecidableEq α] (h : subset xs ys = true) (hz : z ∈ xs) : z ∈ ys := by
  fun_induction subset xs ys with
  | case1 => simp at hz
  | case2 => cases h
  | case3 x xs y ys _ ih => exact List.mem_cons_of_mem _ (ih h hz)
  | case4 x xs ys _ ih =>
    rcases List.mem_cons.mp hz with rfl | hz
    · exact List.mem_cons_self
    · exact ih h hz
  | case5 => cases h

theorem mem_of_strictSubset [LT α] [DecidableLT α] [DecidableEq α] (h : strictSubset xs ys = true) (hz : z ∈ xs) :
    z ∈ ys := by
  simp only [strictSubset, Bool.and_eq_true] at h
  exact mem_of_subset h.2 hz

theorem agree_iff [DecidableEq α] (h : xs.length = ys.length) : agree xs ys = true ↔ xs = ys := by
  fun_induction agree xs ys with
  | case1 xs y ys ih => rw [ih (Nat.succ.inj h), List.cons.injEq, eq_self, true_and]
  | case2 x xs y ys hne => simp [hne]
  | case3 xs ys hshort =>
    cases xs with
    | nil => exact iff_of_true rfl (List.eq_nil_of_length_eq_zero h.symm).symm
    | cons x xs =>
      cases ys with
      | nil => cases h
      | cons y ys => exact absurd rfl (hshort x xs y ys rfl)

/-- Lists that are as long and agree at every place are the same list. -/
theorem same_iff [DecidableEq α] : same xs ys = true ↔ xs = ys := by
  rw [same, Bool.and_eq_true, decide_eq_true_iff]
  exact ⟨fun h => (agree_iff h.1).mp h.2, fun h => ⟨congrArg _ h, (agree_iff (congrArg _ h)).mpr h⟩⟩

section Scan
variable [LT α] [DecidableLT α] [DecidableEq α] [LE α] [Std.IsLinearOrder α] [Std.LawfulOrderLT α]

theorem subset_of_forall_mem (hxs : xs.Pairwise (· < ·)) (hys : ys.Pairwise (· < ·)) (h : xs ⊆ ys) :
    subset xs ys = true := by
  fun_induction subset xs ys with
  | case1 => rfl
  | case2 x xs => exact absurd (h List.mem_cons_self) List.not_mem_nil
  | case3 x xs y ys hlt ih =>
    -- All members of the first list are above `y`, so they are found behind it.
    refine ih hxs hys.of_cons fun z hz => (List.mem_cons.mp (h hz)).resolve_left fun hzy => ?_
    rcases List.mem_cons.mp hz with rfl | hz
    · exact Std.lt_irrefl (hzy ▸ hlt)
    · exact Std.lt_irrefl (Std.lt_trans hlt (hzy ▸ List.rel_of_pairwise_cons hxs hz))
  | case4 x xs ys hlt ih => exact ih hxs.of_cons hys (List.subset_of_cons_subset h)
  | case5 x xs y ys hlt hne =>
    rcases List.mem_cons.mp (h List.mem_cons_self) with rfl | hx
    · exact absurd rfl hne
    · exact absurd (List.rel_of_pairwise_cons hys hx) hlt

/-- Between ascending lists the scan decides proper inclusion. -/
theorem strictSubset_iff (hxs : xs.Pairwise (· < ·)) (hys : ys.Pairwise (· < ·)) :
    strictSubset xs ys = true ↔ xs ⊆ ys ∧ ¬ ys ⊆ xs := by
  rw [strictSubset, Bool.and_eq_true, decide_eq_true_iff]
  constructor
  · rintro ⟨hlength, hsubset⟩
    refine ⟨fun _ => mem_of_subset hsubset, fun hback => ?_⟩
    exact Nat.not_le_of_lt hlength (hys.nodup.length_le_of_subset hback)
  · rintro ⟨hsubset, hback⟩
    refine ⟨Nat.lt_of_not_le fun hlength => hback ?_, subset_of_forall_mem hxs hys hsubset⟩
    exact ((List.subperm_of_subset hxs.nodup hsubset).perm_of_length_le hlength).symm.subset

/-- Of two ascending lists one is the other, part of the other, or neither includes the other. -/
theorem compare_cases (hxs : xs.Pairwise (· < ·)) (hys : ys.Pairwise (· < ·)) :
    xs = ys ∨ strictSubset xs ys = true ∨ strictSubset ys xs = true ∨ ¬ xs ⊆ ys ∧ ¬ ys ⊆ xs := by
  rw [strictSubset_iff hxs hys, strictSubset_iff hys hxs]
  by_cases hsubset : xs ⊆ ys <;> by_cases hback : ys ⊆ xs
  · exact Or.inl (hsubset.antisymm_of_pairwise hxs hys hback)
  · exact Or.inr (Or.inl ⟨hsubset, hback⟩)
  · exact Or.inr (Or.inr (Or.inl ⟨hback, hsubset⟩))
  · exact Or.inr (Or.inr (Or.inr ⟨hsubset, hback⟩))

end Scan

theorem length_lt_of_strictSubset [LT α] [DecidableLT α] [DecidableEq α] (h : strictSubset xs ys = true) :
    xs.length < ys.length := by
  simp only [strictSubset, Bool.and_eq_true, decide_eq_true_eq] at h
  exact h.1

/-! ### Unions -/

section Union
variable [LT α] [DecidableLT α] {xs' ys' : List α}

/-- The union of two lists: their least member, and then the union of what is left. -/
def union (xs ys : List α) : List α :=
  match _least : least? xs ys with
  | none => []
  | some (x, xs', ys') => x :: union xs' ys'
termination_by xs.length + ys.length
decreasing_by exact length_lt_of_least? _least

theorem union_of_none (h : least? xs ys = none) : union xs ys = [] := by
  rw [union]
  split
  · rfl
  · rename_i h'
    cases h.symm.trans h'

theorem union_of_some (h : least? xs ys = some (x, xs', ys')) : union xs ys = x :: union xs' ys' := by
  rw [union]
  split
  · rename_i h'
    cases h.symm.trans h'
  · rename_i h'
    cases h.symm.trans h'
    rfl

theorem eq_nil_of_least? (h : least? xs ys = none) : xs = [] ∧ ys = [] := by
  revert h
  fun_cases least? xs ys <;> simp

variable [LE α] [Std.IsLinearOrder α] [Std.LawfulOrderLT α]

theorem mem_or_mem_of_least? (h : least? xs ys = some (x, xs', ys')) : z ∈ xs ∨ z ∈ ys ↔ z = x ∨ z ∈ xs' ∨ z ∈ ys' := by
  revert h
  fun_cases least? xs ys with
  | case1 => simp
  | case2 x xs =>
    rintro ⟨⟩
    simp
  | case3 y ys =>
    rintro ⟨⟩
    simp
  | case4 x xs y ys _ =>
    rintro ⟨⟩
    simp only [List.mem_cons, or_assoc]
  | case5 x xs y ys _ _ =>
    rintro ⟨⟩
    simp only [List.mem_cons]
    exact or_left_comm
  | case6 x xs y ys h₁ h₂ =>
    obtain rfl : x = y := Std.le_antisymm (Std.not_lt.mp h₂) (Std.not_lt.mp h₁)
    rintro ⟨⟩
    simp only [List.mem_cons]
    exact or_or_distrib_left.symm

/-- The member that is taken is below all that are left. -/
theorem pairwise_cons_of_least? (h : least? xs ys = some (x, xs', ys')) (hxs : xs.Pairwise (· < ·))
    (hys : ys.Pairwise (· < ·)) : (x :: xs').Pairwise (· < ·) ∧ (x :: ys').Pairwise (· < ·) := by
  have ahead : ∀ {x y : α} {ys : List α}, x < y → (y :: ys).Pairwise (· < ·) → (x :: y :: ys).Pairwise (· < ·) :=
    fun hlt hys => List.isChain_iff_pairwise.mp (.cons_cons hlt (List.isChain_iff_pairwise.mpr hys))
  revert h
  fun_cases least? xs ys with
  | case1 => simp
  | case2 x xs =>
    rintro ⟨⟩
    exact ⟨hxs, List.pairwise_singleton ..⟩
  | case3 y ys =>
    rintro ⟨⟩
    exact ⟨List.pairwise_singleton .., hys⟩
  | case4 x xs y ys hlt =>
    rintro ⟨⟩
    exact ⟨hxs, ahead hlt hys⟩
  | case5 x xs y ys _ hlt =>
    rintro ⟨⟩
    exact ⟨ahead hlt hxs, hys⟩
  | case6 x xs y ys h₁ h₂ =>
    obtain rfl : x = y := Std.le_antisymm (Std.not_lt.mp h₂) (Std.not_lt.mp h₁)
    rintro ⟨⟩
    exact ⟨hxs, hys⟩

theorem mem_union : z ∈ union xs ys ↔ z ∈ xs ∨ z ∈ ys := by
  fun_induction union xs ys with
  | case1 xs ys h =>
    obtain ⟨rfl, rfl⟩ := eq_nil_of_least? h
    simp
  | case2 xs ys x xs' ys' h ih => rw [List.mem_cons, ih, mem_or_mem_of_least? h]

theorem pairwise_union (hxs : xs.Pairwise (· < ·)) (hys : ys.Pairwise (· < ·)) : (union xs ys).Pairwise (· < ·) := by
  fun_induction union xs ys with
  | case1 => exact .nil
  | case2 xs ys x xs' ys' h ih =>
    obtain ⟨hfirst, hsecond⟩ := pairwise_cons_of_least? h hxs hys
    refine List.pairwise_cons.mpr ⟨fun z hz => ?_, ih hfirst.of_cons hsecond.of_cons⟩
    rcases mem_union.mp hz with hz | hz
    · exact List.rel_of_pairwise_cons hfirst hz
    · exact List.rel_of_pairwise_cons hsecond hz

end Union

end CacheTiming.Ascending
