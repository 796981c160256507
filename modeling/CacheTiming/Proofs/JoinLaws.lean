import CacheTiming.Proofs.Trace.Join

/-! The laws of joining traces.

They hold in all stores that recording observations, joining and widening lead to: what a node counts
is told by its merge key, a join is refused for three reasons only, it does not depend on the order of
its sides and absorbs them, and it has the traces of its sides and no others, except where a placeholder
stands for a real node that it does not hold.

Joins that may find a node by its key are considered as long as ids fit the four bytes of a key. -/

namespace CacheTiming.Store

variable {s t : Store} {n a b p j r x : NodeId} {status : Status} {ancestors ns : List NodeId}
  {trace : List Observation} {m : Traced.Memory}

/-! ### Counts -/

theorem WellFormed.count_of_single (hs : s.WellFormed) (hn : n < s.size) (h : (s.node n).ancestry = .single p) :
    s.count n = if (s.node n).status = .hitOrMiss then (s.count p).double else s.count p := by
  rw [Store.count, hs.count hn, h]
  rfl

/-- What nodes other than the root count: an observation as much as its predecessor, or twice as much if it
    may hit or miss, and a placeholder as much as the real nodes that it stands for. -/
structure CountsByKey (s : Store) : Prop where
  real : ∀ n < s.size, n ≠ 0 → (s.node n).isPlaceholder = false →
    ∃ p < n, (s.node n).ancestry = .single p ∧ (s.node n).ancestors = [p] ∧
      s.count n = if (s.node n).status = .hitOrMiss then (s.count p).double else s.count p
  placeholder : ∀ n < s.size, (s.node n).isPlaceholder = true →
    2 ≤ (s.node n).ancestors.length ∧ (s.node n).ancestors.Pairwise (· < ·) ∧
      (∀ x ∈ (s.node n).ancestors, x < n ∧ (s.node x).isPlaceholder = false) ∧
      s.count n = s.total (s.node n).ancestors
  /-- Joining a placeholder again with a node that it stands for leads to it and makes no node. -/
  again : ∀ n < s.size, (s.node n).isPlaceholder = true → ∀ x ∈ (s.node n).ancestors,
    (∃ t, s.join x n = .ok (n, t) ∧ s.Alike t) ∧ ∃ t, s.join n x = .ok (n, t) ∧ s.Alike t

theorem reachable_counts_by_key (h : s.Reachable) : s.CountsByKey where
  real n hn hne hreal := by
    have hs := h.lawful
    obtain ⟨p, hp⟩ := hs.single_of_real hn hne hreal
    have holder := hs.older hn
    rw [hp] at holder
    exact ⟨p, holder, hp, hs.ancestors_of_single hn hp, hs.count_of_single hn hp⟩
  placeholder n hn hplaceholder := by
    have hs := h.lawful
    have hplaced := hs.placed hn
    have hreals := reals_of_placeholder hplaceholder
    refine ⟨hplaced.wide hplaceholder, hs.ascending hn, fun x hx => ⟨?_, hplaced.real x (hreals ▸ hx)⟩, ?_⟩
    · exact hs.lt_of_mem_ancestorsOf (Nat.le_of_lt hn) (hs.older hn) (hs.ancestors hn) x hx
    · rw [hplaced.total, hreals]
  again n hn hplaceholder x hx := by
    have hs := h.lawful
    have hxn := hs.lt_of_mem_ancestorsOf (Nat.le_of_lt hn) (hs.older hn) (hs.ancestors hn) x hx
    have hxs := Nat.lt_trans hxn hn
    have hreal := (hs.placed hn).real x (reals_of_placeholder hplaceholder ▸ hx)
    have hreals : s.reals x ⊆ (s.node n).ancestors := by
      rw [reals_of_real (ne_true_of_eq_false hreal), hs.id hxs]
      exact fun y hy => List.mem_singleton.mp hy ▸ hx
    obtain ⟨t, hjoin, halike⟩ := hs.join_placeholder hxs hn hplaceholder hreals
    obtain ⟨t', hjoin', rfl | ⟨rfl, -⟩⟩ := hs.join_swap hxs hn hjoin
    · exact ⟨⟨_, hjoin, halike⟩, _, hjoin', halike⟩
    · exact absurd hn (Nat.lt_irrefl _)

/-- Requests that make a placeholder for three nodes, and find it again by joining the same nodes in
    another order. -/
def Request.merging : List Request :=
  [.extend 0 .hit, .extend 0 .miss, .extend 1 .hit, .extend 2 .hitOrMiss, .join 3 4, .extend 1 .noAccess,
    .extend 6 .miss, .join 5 7, .join 3 7, .widen 9 4]

/-- The store after these requests. -/
def merging : Store := (Request.serve {} Request.merging).store

theorem reachable_merging : merging.Reachable :=
  Reachable.initial.serve (m := {}) (by decide +kernel) (by decide +kernel)

theorem merging_counts_by_key :
    merging.CountsByKey ∧ (merging.node 8).ancestors = [3, 4, 7] ∧ merging.count 8 = 4 ∧
      ∃ t, merging.join 8 4 = .ok (8, t) ∧ merging.Alike t := by
  have hcounts := reachable_counts_by_key reachable_merging
  refine ⟨hcounts, by decide +kernel, by decide +kernel, ?_⟩
  exact (hcounts.again 8 (by decide +kernel) (by decide +kernel) 4 (by decide +kernel)).2

/-! ### Refusals -/

/-- The root and another real node. -/
def RootWithReal (s : Store) (a b : NodeId) : Prop :=
  a = 0 ∧ (s.node b).isPlaceholder = false ∨ b = 0 ∧ (s.node a).isPlaceholder = false

/-- Placeholders of which neither stands for all nodes of the other. -/
def ApartPlaceholders (s : Store) (a b : NodeId) : Prop :=
  (s.node a).isPlaceholder = true ∧ (s.node b).isPlaceholder = true ∧ s.Apart a b

theorem refused_merge_iff : (∃ e, s.Refused a b e ∧ e.isPlaceholderMerge = true) ↔ s.ApartPlaceholders a b := by
  constructor
  · rintro ⟨e, hrefused, hkind⟩
    cases hrefused with
    | placeholders first second apart => exact ⟨first, second, apart⟩
    | _ => cases hkind
  · rintro ⟨first, second, apart⟩
    exact ⟨_, .placeholders first second apart, rfl⟩

theorem refused_invariant_iff :
    (∃ e, s.Refused a b e ∧ e.isPlaceholderMerge = false) ↔ s.Mismatched a b ∨ s.RootWithReal a b := by
  constructor
  · rintro ⟨e, hrefused, hkind⟩
    cases hrefused with
    | mismatched h => exact .inl h
    | rootFirst root real => exact .inr (.inl ⟨root, real⟩)
    | rootSecond root real => exact .inr (.inr ⟨root, real⟩)
    | placeholders => cases hkind
  · rintro (h | ⟨root, real⟩ | ⟨root, real⟩)
    · exact ⟨_, .mismatched h, rfl⟩
    · exact ⟨_, .rootFirst root real, rfl⟩
    · exact ⟨_, .rootSecond root real, rfl⟩

/-- A join of different nodes is refused in three cases, of which only the last one is a merge of two
    placeholders. It changes nothing then, and no other error arises. -/
theorem join_refused_iff (h : m.store.Reachable) (ha : a < m.store.size) (hb : b < m.store.size) (hab : a ≠ b) :
    ((∃ f m', (Request.join a b).run m = .error f m') ↔
      m.store.Mismatched a b ∨ m.store.RootWithReal a b ∨ m.store.ApartPlaceholders a b) ∧
    ∀ f m', (Request.join a b).run m = .error f m' → m' = m ∧ ∃ e, f = .trace e ∧
      (e.isPlaceholderMerge = true ↔ m.store.ApartPlaceholders a b) ∧
      (e.isPlaceholderMerge = false ↔ m.store.Mismatched a b ∨ m.store.RootWithReal a b) ∧
      e ∈ [.accessMismatch a b, .realSubsumption a b, .realSubsumption b a, .placeholderMerge a b] ∧
      ∀ x y, e ≠ .sharedKey x y ∧ e ≠ .differentAncestry x y ∧ e ≠ .placeholderPromotion x y := by
  have hs := h.lawful
  have hfails : ∀ {e}, m.store.Refused a b e → (Request.join a b).run m = .error (.trace e) m :=
    fun he => Traced.inStore_of_error (he.join_eq hs ha hb hab)
  refine ⟨?_, fun f m' hrun => ?_⟩
  · rw [← or_assoc, ← refused_invariant_iff, ← refused_merge_iff]
    constructor
    · rintro ⟨f, m', hrun⟩
      obtain ⟨e, herror, -, -⟩ := Traced.inStore_eq_error hrun
      have he := hs.refused_of_join ha hb hab herror
      cases hkind : e.isPlaceholderMerge with
      | true => exact .inr ⟨e, he, hkind⟩
      | false => exact .inl ⟨e, he, hkind⟩
    · rintro (⟨e, he, -⟩ | ⟨e, he, -⟩)
      · exact ⟨_, _, hfails he⟩
      · exact ⟨_, _, hfails he⟩
  · obtain ⟨e, herror, rfl, rfl⟩ := Traced.inStore_eq_error hrun
    have he := hs.refused_of_join ha hb hab herror
    -- The join has one result, so each case is told by the kind of the error.
    have honly : ∀ {e'}, m'.store.Refused a b e' → e' = e := by
      intro e' he'
      have heq := hfails he'
      rw [hfails he] at heq
      cases heq
      rfl
    refine ⟨rfl, e, rfl, ⟨fun hkind => ?_, fun hapart => ?_⟩, ⟨fun hkind => ?_, fun hreason => ?_⟩, ?_, ?_⟩
    · exact refused_merge_iff.mp ⟨e, he, hkind⟩
    · obtain ⟨e', he', hkind⟩ := refused_merge_iff.mpr hapart
      exact honly he' ▸ hkind
    · exact refused_invariant_iff.mp ⟨e, he, hkind⟩
    · obtain ⟨e', he', hkind⟩ := refused_invariant_iff.mpr hreason
      exact honly he' ▸ hkind
    · cases he <;> simp
    · cases he <;> simp

theorem merging_joins_refused :
    (∃ f m, (Request.join 3 6).run (Request.serve {} Request.merging) = .error f m) ∧
    (∃ f m, (Request.join 0 4).run (Request.serve {} Request.merging) = .error f m) ∧
    ∃ e, (Request.join 5 9).run (Request.serve {} Request.merging) =
      .error (.trace e) (Request.serve {} Request.merging) ∧ e.isPlaceholderMerge = true := by
  have hmismatched : merging.Mismatched 3 6 :=
    ⟨by decide +kernel, by decide +kernel,
      ⟨1, Node.parent_eq_ok.mpr (by decide +kernel), Node.parent_eq_ok.mpr (by decide +kernel)⟩, by decide +kernel⟩
  have hapart : merging.ApartPlaceholders 5 9 := by
    have hfirst : (merging.node 5).ancestors = [3, 4] := by decide +kernel
    have hsecond : (merging.node 9).ancestors = [3, 7] := by decide +kernel
    refine ⟨by decide +kernel, by decide +kernel, ?_⟩
    rw [Apart, hfirst, hsecond]
    decide
  refine ⟨?_, ?_, ?_⟩
  · exact (join_refused_iff reachable_merging (by decide +kernel) (by decide +kernel) (by decide)).1.mpr (.inl hmismatched)
  · refine (join_refused_iff reachable_merging (by decide +kernel) (by decide +kernel) (by decide)).1.mpr ?_
    exact .inr (.inl (.inl ⟨rfl, by decide +kernel⟩))
  · obtain ⟨hfails, herror⟩ :=
      join_refused_iff (a := 5) (b := 9) reachable_merging (by decide +kernel) (by decide +kernel) (by decide)
    obtain ⟨f, m, hrun⟩ := hfails.mpr (.inr (.inr hapart))
    obtain ⟨rfl, e, rfl, hkind, -⟩ := herror f m hrun
    exact ⟨e, hrun, hkind.mpr hapart⟩

/-! ### Commutation and absorption -/

theorem Alike.refl (s : Store) : s.Alike s := ⟨rfl, rfl⟩

theorem Lawful.join_absorbs (hs : s.Lawful) (ha : a < s.size) (hb : b < s.size) (hsize : s.size ≤ UInt32.size)
    (h : s.join a b = .ok (j, t)) :
    (∃ u, t.join a j = .ok (j, u) ∧ t.Alike u) ∧ ∃ u, t.join b j = .ok (j, u) ∧ t.Alike u := by
  have ht := hs.join ha hb h
  have hy := (join_eq_ok h).yields hs.toRegular ha hb
  have ha' := Nat.lt_of_lt_of_le ha hy.grown.size
  have hb' := Nat.lt_of_lt_of_le hb hy.grown.size
  cases join_eq_ok h with
  | same heq =>
    subst heq
    exact ⟨⟨_, join_self .., .refl _⟩, _, join_self .., .refl _⟩
  | promoted shared first second real found =>
    obtain ⟨p, hp, hfirst, hsecond, found⟩ := hs.promoted_single ha shared first real found
    obtain ⟨hstatus, hj⟩ := found.node_single hs.toRegular hp hsize (by simp)
    rw [← hy.grown.node ha] at hfirst first
    rw [← hy.grown.node hb] at hsecond second
    exact ⟨ht.join_hitOrMiss ha' hy.lt hfirst hj hstatus first,
      ht.join_hitOrMiss hb' hy.lt hsecond hj hstatus second⟩
  | second placeholder subset =>
    rw [hs.id hb] at h ⊢
    exact ⟨⟨_, h, .refl _⟩, _, join_self .., .refl _⟩
  | first placeholder subset =>
    have hjoin := (join_of_strictSubset subset).1
    rw [subsume_of_placeholder placeholder, hs.id ha] at hjoin
    rw [hs.id ha]
    exact ⟨⟨_, join_self .., .refl _⟩, _, hjoin, .refl _⟩
  | merged found =>
    have hbelow : Ancestry.Below s.size (.couple a b) := ⟨ha, hb⟩
    obtain ⟨hstatus, hkey⟩ := found.key hs.toWellFormed hbelow hsize
    rw [← hy.grown.ancestorsOf hbelow] at hkey
    have hplaceholder : (t.node j).isPlaceholder = true := decide_eq_true hstatus
    exact ⟨ht.join_placeholder ha' hy.lt hplaceholder fun x hx => (mem_ancestorsOf_couple hkey).mpr (.inl hx),
      ht.join_placeholder hb' hy.lt hplaceholder fun x hx => (mem_ancestorsOf_couple hkey).mpr (.inr hx)⟩

/-- A join does not depend on the order of its sides, but for the order of predecessors of a placeholder
    that is made for it, and it is found again when a side or the join itself is joined with it. -/
theorem join_comm_absorbs (h : s.Reachable) (ha : a < s.size) (hb : b < s.size) :
    s.join a a = .ok (a, s) ∧
    (∀ e, s.join a b = .error e → ∃ e', s.join b a = .error e' ∧ e'.isPlaceholderMerge = e.isPlaceholderMerge) ∧
    ∀ j t, s.join a b = .ok (j, t) →
      (∃ t', s.join b a = .ok (j, t') ∧ (t'.node j).status = (t.node j).status ∧
        (t'.node j).ancestors = (t.node j).ancestors ∧ t'.count j = t.count j ∧ s.Reordered j t t') ∧
      (s.size < UInt32.size → ∀ n ∈ [a, b, j], ∃ u, t.join n j = .ok (j, u) ∧ t.Alike u) := by
  have hs := h.lawful
  refine ⟨join_self s a, fun e herror => ?_, fun j t hjoin => ⟨?_, ?_⟩⟩
  · have hab : a ≠ b := by
      rintro rfl
      rw [join_self] at herror
      cases herror
    obtain ⟨e', he', hkind⟩ := (hs.refused_of_join ha hb hab herror).symm
    exact ⟨e', he'.join_eq hs hb ha hab.symm, hkind⟩
  · obtain ⟨t', hjoin', hreordered⟩ := hs.join_swap ha hb hjoin
    obtain ⟨hstatus, hancestors, hcount⟩ := hreordered.key
    exact ⟨t', hjoin', hstatus, hancestors, hcount, hreordered⟩
  · intro hsize
    obtain ⟨hfirst, hsecond⟩ := hs.join_absorbs ha hb hsize.le hjoin
    simp only [List.forall_mem_cons]
    exact ⟨hfirst, hsecond, ⟨t, join_self t j, .refl t⟩, by simp⟩

/-- Nodes of different histories are joined by a new placeholder, whose predecessors are in the order of the
    join. -/
theorem merging_join_comm_absorbs :
    ∃ t t', merging.join 2 3 = .ok (10, t) ∧ merging.join 3 2 = .ok (10, t') ∧ (t.node 10).ancestry = .couple 2 3 ∧
      merging.Reordered 10 t t' ∧ t'.count 10 = t.count 10 ∧ ∃ u, t.join 3 10 = .ok (10, u) ∧ t.Alike u := by
  have hsize : merging.size = 10 := by decide +kernel
  have hapart : merging.Apart 2 3 := by
    rw [Apart]
    decide +kernel
  have hkey : merging.ancestorsOf (.couple 2 3) = .ok [2, 3] := by decide +kernel
  have hjoin : merging.join 2 3 = .ok (10, merging.push .none (.couple 2 3) [2, 3]) := by
    rw [join_of_apart hapart, findOrCreate_of_miss hkey (by decide +kernel), hsize]
  obtain ⟨-, -, hlaws⟩ :=
    join_comm_absorbs (a := 2) (b := 3) reachable_merging (by rw [hsize]; decide) (by rw [hsize]; decide)
  obtain ⟨⟨t', hjoin', -, -, hcount, hreordered⟩, habsorbs⟩ := hlaws 10 _ hjoin
  refine ⟨_, t', hjoin, hjoin', ?_, hreordered, hcount, habsorbs (by rw [hsize]; decide) 3 (by decide)⟩
  rw [← hsize, node_push_size]

/-! ### Traces -/

theorem WellFormed.count_le_of_single (hs : s.WellFormed) (hn : n < s.size) (h : (s.node n).ancestry = .single p) :
    s.count p ≤ s.count n := by
  rw [hs.count_of_single hn h]
  split
  · rw [double_count]
    exact Int.le_add_of_nonneg_right (hs.count_nonneg p)
  · exact Int.le_refl _

theorem WellFormed.total_insert_le (hs : s.WellFormed) (hns : ns.Pairwise (· < ·)) (n : NodeId) :
    s.total (Ascending.insert ns n) ≤ s.total ns + s.count n := by
  by_cases hmem : n ∈ ns
  · rw [Ascending.insert_of_mem hns hmem]
    exact Int.le_add_of_nonneg_right (hs.count_nonneg n)
  · rw [total_perm (Ascending.perm_insert hmem), total_cons]
    exact Int.le_of_eq (Int.add_comm _ _)

theorem Lawful.total_merge_le (hs : s.Lawful) (ha : a < s.size) (hb : b < s.size)
    (h : s.ancestorsOf (.couple a b) = .ok ancestors) : s.total ancestors ≤ s.count a + s.count b := by
  rcases ancestorsOf_couple h with ⟨-, rfl⟩ | ⟨-, rfl⟩
  · rw [(hs.placed ha).total, hs.id hb]
    exact hs.total_insert_le (hs.ascending_reals ha) b
  · rw [(hs.placed hb).total, hs.id ha, Int.add_comm]
    exact hs.total_insert_le (hs.ascending_reals hb) a

theorem Lawful.count_join_le (hs : s.Lawful) (ha : a < s.size) (hb : b < s.size) (hsize : s.size ≤ UInt32.size)
    (h : s.join a b = .ok (j, t)) : t.count j ≤ s.count a + s.count b := by
  have ht := hs.join ha hb h
  have hy := (join_eq_ok h).yields hs.toRegular ha hb
  have hfirst : s.count a ≤ s.count a + s.count b := Int.le_add_of_nonneg_right (hs.count_nonneg b)
  have hsecond : s.count b ≤ s.count a + s.count b := Int.le_add_of_nonneg_left (hs.count_nonneg a)
  cases join_eq_ok h with
  | same => exact hfirst
  | promoted shared first second real found =>
    obtain ⟨p, hp, ha', hb', found⟩ := hs.promoted_single ha shared first real found
    obtain ⟨hstatus, hj⟩ := found.node_single hs.toRegular hp hsize (by simp)
    rw [ht.count_of_single hy.lt hj, if_pos hstatus, hy.grown.count hp, double_count]
    exact Int.add_le_add (hs.count_le_of_single ha ha') (hs.count_le_of_single hb hb')
  | second =>
    rw [hs.id hb]
    exact hsecond
  | first =>
    rw [hs.id ha]
    exact hfirst
  | merged found =>
    have hbelow : Ancestry.Below s.size (.couple a b) := ⟨ha, hb⟩
    obtain ⟨hstatus, hkey⟩ := found.key hs.toWellFormed hbelow hsize
    -- The node may have been made by another merge, but it counts what is in its key.
    rw [(ht.placed hy.lt).total, reals_of_placeholder (decide_eq_true hstatus),
      hy.grown.total (hs.lt_of_mem_ancestorsOf (Nat.le_refl _) hbelow hkey)]
    exact hs.total_merge_le ha hb hkey

/-- A join has no trace that none of its sides has. -/
theorem Lawful.spells_of_join (hs : s.Lawful) (ha : a < s.size) (hb : b < s.size) (hsize : s.size ≤ UInt32.size)
    (h : s.join a b = .ok (j, t)) (htrace : t.Spells j trace) : s.Spells a trace ∨ s.Spells b trace := by
  have hy := (join_eq_ok h).yields hs.toRegular ha hb
  by_cases hab : a = b
  · subst hab
    rw [join_self] at h
    cases h
    exact .inl htrace
  cases join_eq_ok h with
  | same heq => exact absurd heq hab
  | promoted shared first second real found =>
    obtain ⟨p, hp, ha', hb', found⟩ := hs.promoted_single ha shared first real found
    obtain ⟨hstatus, hj⟩ := found.node_single hs.toRegular hp hsize (by simp)
    obtain ⟨before, o, ho, hbefore, rfl⟩ := (spells_single hj).mp htrace
    rw [hy.grown.spells hs.toWellFormed hp] at hbefore
    have hkeys := (hs.ancestors_of_single ha ha').trans (hs.ancestors_of_single hb hb').symm
    have hseen := Status.mem_observations_of_ne ((hs.placed ha).observed (hs.real_of_single ha ha'))
      ((hs.placed hb).observed (hs.real_of_single hb hb')) first second (hs.status_ne ha hb hab hkeys) (hstatus ▸ ho)
    rcases hseen with hseen | hseen
    · exact .inl (.single ha' hbefore hseen)
    · exact .inr (.single hb' hbefore hseen)
  | second =>
    rw [hs.id hb] at htrace
    exact .inr htrace
  | first =>
    rw [hs.id ha] at htrace
    exact .inl htrace
  | merged found =>
    rw [found.spells_couple hs.toRegular ha hb hsize] at htrace
    rwa [hy.grown.spells hs.toWellFormed ha, hy.grown.spells hs.toWellFormed hb] at htrace

/-- A real node whose merge key is a proper part of another's. -/
def Overlooked (s : Store) (sub sup : NodeId) : Prop :=
  (s.node sub).isPlaceholder = false ∧ (s.node sub).ancestors ⊆ (s.node sup).ancestors ∧
    ¬ (s.node sup).ancestors ⊆ (s.node sub).ancestors

theorem Filed.overlooked_of_hides (hs : s.Filed) (ha : a < s.size) (hb : b < s.size) (h : s.hides b a = true) :
    s.Overlooked a b := by
  simp only [hides, Bool.and_eq_true, Bool.not_eq_true'] at h
  exact ⟨h.1.2, (Ascending.strictSubset_iff (hs.ascending ha) (hs.ascending hb)).mp h.2⟩

/-- Where a real node is overlooked, the other node stands for both. -/
theorem Filed.join_of_overlooked (hs : s.Filed) (ha : a < s.size) (hb : b < s.size) (h : s.Overlooked a b) :
    (s.join a b = .ok (j, t) → j = b) ∧ (s.join b a = .ok (j, t) → j = b) := by
  obtain ⟨hfirst, hsecond⟩ :=
    join_of_strictSubset ((Ascending.strictSubset_iff (hs.ascending ha) (hs.ascending hb)).mpr h.2)
  rw [hfirst, hsecond, and_self]
  intro hsubsume
  rw [(subsume_eq_ok hsubsume).2.1, hs.id hb]

/-- A node has no more traces than it counts. A join has the traces of its sides and no others, unless a real
    node is overlooked: then it is the other side. It counts no more than both sides together. -/
theorem join_traces_and_counts (h : s.Reachable) :
    (∀ n < s.size, { trace | s.Spells n trace }.Finite ∧ ({ trace | s.Spells n trace }.ncard : Int) ≤ s.count n) ∧
    (s.size < UInt32.size → ∀ a < s.size, ∀ b < s.size, ∀ j t, s.join a b = .ok (j, t) →
      (¬ (s.Overlooked a b ∨ s.Overlooked b a) → ∀ trace, s.Spells a trace ∨ s.Spells b trace → t.Spells j trace) ∧
      (∀ trace, t.Spells j trace → s.Spells a trace ∨ s.Spells b trace) ∧
      (s.Overlooked a b → j = b) ∧ (s.Overlooked b a → j = a) ∧ t.count j ≤ s.count a + s.count b) := by
  have hs := h.lawful
  refine ⟨fun n _ => hs.ncard_le_count fun _ htrace => htrace, fun hsize a ha b hb j t hjoin => ⟨?_, ?_, ?_, ?_, ?_⟩⟩
  · intro hover trace htrace
    rw [not_or] at hover
    have hab : s.hides a b = false := Bool.eq_false_iff.mpr fun hides => hover.2 (hs.overlooked_of_hides hb ha hides)
    have hba : s.hides b a = false := Bool.eq_false_iff.mpr fun hides => hover.1 (hs.overlooked_of_hides ha hb hides)
    have hjoined := join_eq_ok hjoin
    have hy := hjoined.yields hs.toRegular ha hb
    obtain ⟨hunder, hunder'⟩ := hjoined.under hs.toRegular ha hb hsize.le hab hba
    rcases htrace with htrace | htrace
    · exact hunder ((hy.grown.spells hs.toWellFormed ha).mpr htrace)
    · exact hunder' ((hy.grown.spells hs.toWellFormed hb).mpr htrace)
  · exact fun _ => hs.spells_of_join ha hb hsize.le hjoin
  · exact fun hover => (hs.join_of_overlooked ha hb hover).1 hjoin
  · exact fun hover => (hs.join_of_overlooked hb ha hover).2 hjoin
  · exact hs.count_join_le ha hb hsize.le hjoin

/-- A placeholder that another merge has made has the traces of both sides. -/
theorem merging_join_traces :
    ∃ t, merging.join 9 4 = .ok (8, t) ∧ (merging.node 8).ancestry = .couple 5 7 ∧ t.Spells 8 [.miss, .miss] ∧
      t.count 8 ≤ 4 := by
  have hapart : merging.Apart 9 4 := by
    rw [Apart]
    decide +kernel
  have hkey : merging.ancestorsOf (.couple 9 4) = .ok [3, 4, 7] := by decide +kernel
  obtain ⟨t, hjoin⟩ : ∃ t, merging.join 9 4 = .ok (8, t) := by
    rw [join_of_apart hapart]
    exact ⟨_, findOrCreate_of_hit hkey (by decide +kernel)⟩
  have hroot : merging.Spells 0 [] := .root (by decide +kernel)
  have hmiss : merging.Spells 2 [.miss] :=
    (spells_single (p := 0) (by decide +kernel)).mpr ⟨[], .miss, by decide +kernel, hroot, rfl⟩
  have hmisses : merging.Spells 4 [.miss, .miss] :=
    (spells_single (p := 2) (by decide +kernel)).mpr ⟨[.miss], .miss, by decide +kernel, hmiss, rfl⟩
  have hover : ¬ (merging.Overlooked 9 4 ∨ merging.Overlooked 4 9) := by
    rw [Overlooked, Overlooked]
    decide +kernel
  obtain ⟨-, hjoins⟩ := join_traces_and_counts reachable_merging
  obtain ⟨hkeeps, -, -, -, hcount⟩ := hjoins (by decide +kernel) 9 (by decide +kernel) 4 (by decide +kernel) 8 t hjoin
  exact ⟨t, hjoin, by decide +kernel, hkeeps hover _ (.inr hmisses), Int.le_trans hcount (by decide +kernel)⟩

end CacheTiming.Store
