import CacheTiming.Proofs.HashConsing

/-! The order of traces is a partial order on the nodes of a store, and it says what it should.

This holds in all stores that any requests lead to. Nodes that are below each other have the same status
and the same predecessors, hence the same key, so they are the same node. A node that is below another
has no other traces and counts no more of them. -/

namespace CacheTiming.Store

variable {s : Store} {a b : NodeId} {answer : Bool} {requests : List Request} {m : Traced.Memory}

/-! ### The order of nodes -/

/-- Nodes with the same status and the same predecessors are found by the same key. -/
theorem Filed.eq_of_ancestry (hs : s.Filed) (ha : a < s.size) (hb : b < s.size)
    (hstatus : (s.node a).status = (s.node b).status) (hancestry : (s.node a).ancestry = (s.node b).ancestry) : a = b := by
  have hkey := hs.ancestors ha
  rw [hancestry, hs.ancestors hb] at hkey
  injection hkey with hkey
  refine hs.eq_of_key ha hb ?_
  rw [Node.key, Node.key, hstatus, hkey]

theorem Filed.eq_of_compares (hs : s.Filed) (ha : a < s.size) (hb : b < s.size) (h : s.Compares a b true)
    (h' : s.Compares b a true) : a = b := by
  induction a using Nat.strongRecOn generalizing b with
  | ind a ih =>
    have hbelow := hs.older ha
    have hbelow' := hs.older hb
    cases hancestry : (s.node a).ancestry with
    | root =>
      obtain ⟨related, hroot⟩ := h.of_root hancestry
      obtain ⟨related', -⟩ := h'.of_root hroot
      exact hs.eq_of_ancestry ha hb (Status.subseteq_antisymm related related') (hancestry.trans hroot.symm)
    | single p =>
      obtain ⟨related, q, hq, hparents⟩ := h.of_single hancestry
      obtain ⟨related', p', hp', hparents'⟩ := h'.of_single hq
      rw [hancestry] at hp' hbelow
      rw [hq] at hbelow'
      cases hp'
      have hpq := ih p hbelow (Nat.lt_trans hbelow ha) (Nat.lt_trans hbelow' hb) hparents hparents'
      exact hs.eq_of_ancestry ha hb (Status.subseteq_antisymm related related') (by rw [hancestry, hq, hpq])
    | couple p r =>
      obtain ⟨related, q, t, hq, hsides, hsides'⟩ := h.of_couple hancestry
      obtain ⟨related', p', r', hp', hback, hback'⟩ := h'.of_couple hq
      rw [hancestry] at hp' hbelow
      rw [hq] at hbelow'
      cases hp'
      have hpq := ih p hbelow.1 (Nat.lt_trans hbelow.1 ha) (Nat.lt_trans hbelow'.1 hb) hsides hback
      have hrt := ih r hbelow.2 (Nat.lt_trans hbelow.2 ha) (Nat.lt_trans hbelow'.2 hb) hsides' hback'
      exact hs.eq_of_ancestry ha hb (Status.subseteq_antisymm related related') (by rw [hancestry, hq, hpq, hrt])

/-- The comparison of nodes is the plain recursion whatever right answers it remembers, and it orders the
    nodes. -/
structure PartiallyOrdered (s : Store) : Prop where
  plain : ∀ a < s.size, ∀ b < s.size, ∀ answer, s.Compares a b answer ↔ answer = s.subseteq a b
  memo : ∀ a < s.size, ∀ b < s.size, ∀ memo, s.Faithful memo →
    (s.subseteqMemo a b memo).1 = s.subseteq a b ∧ s.Faithful (s.subseteqMemo a b memo).2
  refl : ∀ a < s.size, s.subseteq a a = true
  trans : ∀ a < s.size, ∀ b < s.size, ∀ c < s.size, s.subseteq a b = true → s.subseteq b c = true →
    s.subseteq a c = true
  antisymm : ∀ a < s.size, ∀ b < s.size, s.subseteq a b = true → s.subseteq b a = true → a = b

theorem requests_partially_ordered (h : Request.Timely {} requests) (hm : Request.serve {} requests = m) :
    m.store.PartiallyOrdered := by
  have hs : m.store.Filed := hm ▸ filed_initial.serve h
  refine ⟨fun a _ b _ answer => ?_, fun a _ b _ memo hmemo => ?_, fun a _ => ?_, fun a _ b _ c _ hab hbc => ?_,
    fun a ha b hb hab hba => ?_⟩
  · exact hs.compares_iff
  · obtain ⟨hanswer, hkept⟩ := hs.subseteqMemo_compares a b memo hmemo
    exact ⟨hs.compares_iff.mp hanswer, hkept⟩
  · exact (hs.compares_iff.mp (hs.compares_self a)).symm
  · have hac := (hs.compares_of_subseteq hab).trans (hs.compares_of_subseteq hbc)
    exact (hs.compares_iff.mp hac).symm
  · exact hs.eq_of_compares ha hb (hs.compares_of_subseteq hab) (hs.compares_of_subseteq hba)

/-- Requests for a merge, for another one with a side that observed less, and for real nodes with the
    predecessors of both. -/
def Request.narrowing : List Request :=
  [.extend 0 .hit, .extend 0 .miss, .join 1 2, .extend 1 .miss, .join 3 4, .join 1 4,
    .findOrCreate .hitOrMiss (.known (.couple 3 4)), .findOrCreate .hit (.known (.couple 1 4))]

/-- The store after these requests. -/
def narrowing : Store := (Request.serve {} Request.narrowing).store

theorem timely_narrowing : Request.Timely {} Request.narrowing := by decide +kernel

theorem filed_narrowing : narrowing.Filed := filed_initial.serve (m := {}) timely_narrowing

/-- The hit is below the hit or miss, so both a merge with it and a real node behind it are below the other. -/
theorem compares_narrowing : narrowing.Compares 6 5 true ∧ narrowing.Compares 8 7 true := by
  have hsame := filed_narrowing.compares_self
  have hsides : narrowing.Compares 1 3 true :=
    .single (by decide +kernel) (by decide +kernel) (by decide +kernel) (hsame 0)
  exact ⟨.couple_true (by decide +kernel) (by decide +kernel) (by decide +kernel) hsides (hsame 4),
    .couple_true (by decide +kernel) (by decide +kernel) (by decide +kernel) hsides (hsame 4)⟩

theorem narrowing_partially_ordered :
    narrowing.PartiallyOrdered ∧ narrowing.subseteq 8 7 = true ∧ narrowing.subseteq 7 8 = false := by
  have hordered : narrowing.PartiallyOrdered := requests_partially_ordered timely_narrowing rfl
  have hsmall : 8 < narrowing.size := by decide +kernel
  have hlarge : 7 < narrowing.size := by decide +kernel
  have hbelow : narrowing.subseteq 8 7 = true := ((hordered.plain 8 hsmall 7 hlarge true).mp compares_narrowing.2).symm
  refine ⟨hordered, hbelow, Bool.eq_false_iff.mpr fun habove => ?_⟩
  cases hordered.antisymm 8 hsmall 7 hlarge hbelow habove

/-! ### Traces and counts -/

theorem mul_factor_le {x y : Status} {u v : Count} (h : x.subseteq y = true) (huv : u ≤ v) (hv : 0 ≤ v) :
    u * (if x = .hitOrMiss then 2 else 1 : Nat) ≤ v * (if y = .hitOrMiss then 2 else 1 : Nat) := by
  have hfactor : (if x = .hitOrMiss then 2 else 1) ≤ if y = .hitOrMiss then 2 else 1 := by
    rcases Status.subseteq_iff.mp h with rfl | ⟨rfl, -⟩
    · exact Nat.le_refl _
    · split <;> decide
  exact Int.mul_le_mul huv (Int.ofNat_le.mpr hfactor) (Int.natCast_nonneg _) hv

theorem WellFormed.count_eq (hs : s.WellFormed) (n : NodeId) :
    s.count n = s.countOf (s.node n).status (s.node n).ancestry := by
  rcases Nat.lt_or_ge n s.size with hn | hn
  · exact hs.count hn
  · rw [Store.count, node_of_size_le hn]
    rfl

theorem WellFormed.count_le_of_compares (hs : s.WellFormed) (h : s.Compares a b true) : s.count a ≤ s.count b := by
  generalize hanswer : true = answer at h
  induction h with
  | status => cases hanswer
  | kind => cases hanswer
  | couple_false => cases hanswer
  | root related first second =>
    rw [hs.count_eq, hs.count_eq, first, second, countOf_eq, countOf_eq]
    exact mul_factor_le related (Int.le_refl 1) Int.one_nonneg
  | @single a b p q _ related first second _ ih =>
    rw [hs.count_eq a, hs.count_eq b, first, second, countOf_eq, countOf_eq]
    exact mul_factor_le related (ih hanswer) (hs.count_nonneg q)
  | @couple_true a b p p' q q' _ related first second _ _ ih ih' =>
    rw [hs.count_eq a, hs.count_eq b, first, second, countOf_eq, countOf_eq]
    have hnonneg := Int.add_nonneg (hs.count_nonneg q) (hs.count_nonneg q')
    exact mul_factor_le related (Int.add_le_add (ih rfl) (ih' hanswer)) hnonneg

/-- A node that is below another has no other traces and counts no more. -/
theorem subseteq_traces_and_counts (h : Request.Timely {} requests) (hm : Request.serve {} requests = m)
    (hab : m.store.subseteq a b = true) :
    {trace | m.store.Spells a trace} ⊆ {trace | m.store.Spells b trace} ∧ m.store.count a ≤ m.store.count b := by
  have hs : m.store.Filed := hm ▸ filed_initial.serve h
  exact ⟨hs.under_of_subseteq hab, hs.count_le_of_compares (hs.compares_of_subseteq hab)⟩

theorem narrowing_traces_and_counts :
    narrowing.subseteq 6 5 = true ∧ narrowing.Spells 5 [.hit, .miss] ∧ narrowing.count 6 ≤ narrowing.count 5 := by
  have hbelow : narrowing.subseteq 6 5 = true := (filed_narrowing.compares_iff.mp compares_narrowing.1).symm
  obtain ⟨htraces, hcounts⟩ := subseteq_traces_and_counts timely_narrowing rfl hbelow
  have hroot : narrowing.Spells 0 [] := .root (by decide +kernel)
  have hhit : narrowing.Spells 1 [.hit] := .single (by decide +kernel) hroot (by decide +kernel)
  have hmiss : narrowing.Spells 4 [.hit, .miss] := .single (by decide +kernel) hhit (by decide +kernel)
  exact ⟨hbelow, htraces (.second (a := 1) (by decide +kernel) hmiss), hcounts⟩

end CacheTiming.Store
