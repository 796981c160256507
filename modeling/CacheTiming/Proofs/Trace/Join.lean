import CacheTiming.Proofs.Trace.Lawful

/-! How two nodes of a lawful store meet, and what their join is then.

Different nodes are siblings after one node, or one of them is the root, or the merge key of one is part
of a placeholder's, or neither key includes the other. The order in which the nodes are given matters
only for the predecessors of a placeholder that is made for them, and a join that was made once is found
again when one of its sides is joined with it. -/

namespace CacheTiming

/-- The same predecessors in the other order. -/
def Ancestry.swap : Ancestry → Ancestry
  | .couple a b => .couple b a
  | a => a

theorem Node.parent_eq_ok {n : Node} {p : NodeId} : n.parent = .ok p ↔ n.ancestry = .single p := by
  unfold Node.parent
  cases n.ancestry <;> simp

namespace Store

variable {s t : Store} {n a b p j r : NodeId} {status : Status} {ancestry : Ancestry} {ancestors : List NodeId}
  {e : TraceError}

/-! ### Meetings -/

/-- Nodes that observed different things after one node. -/
structure Siblings (s : Store) (p a b : NodeId) : Prop where
  first : (s.node a).ancestry = .single p
  second : (s.node b).ancestry = .single p
  differ : (s.node a).status ≠ (s.node b).status

/-- Neither of two merge keys includes the other. -/
def Apart (s : Store) (a b : NodeId) : Prop :=
  ¬ (s.node a).ancestors ⊆ (s.node b).ancestors ∧ ¬ (s.node b).ancestors ⊆ (s.node a).ancestors

/-- How two different nodes stand to each other. -/
inductive Meeting (s : Store) (a b : NodeId) : Prop where
  | siblings {p : NodeId} (siblings : s.Siblings p a b)
  | rootFirst (root : a = 0) (real : (s.node b).isPlaceholder = false)
  | rootSecond (root : b = 0) (real : (s.node a).isPlaceholder = false)
  | within (placeholder : (s.node b).isPlaceholder = true)
      (subset : Ascending.strictSubset (s.node a).ancestors (s.node b).ancestors = true)
  | around (placeholder : (s.node a).isPlaceholder = true)
      (subset : Ascending.strictSubset (s.node b).ancestors (s.node a).ancestors = true)
  | apart (apart : s.Apart a b)

/-- A placeholder is the only node with its merge key: another placeholder would have been found by it, and
    the keys of real nodes are shorter. -/
theorem Lawful.real_of_ancestors_eq (hs : s.Lawful) (ha : a < s.size) (hb : b < s.size) (hab : a ≠ b)
    (h : (s.node a).ancestors = (s.node b).ancestors) : (s.node a).isPlaceholder = false := by
  by_contra hp
  rw [Bool.not_eq_false] at hp
  have hwide := (hs.placed ha).wide hp
  cases hq : (s.node b).isPlaceholder with
  | true => exact hs.status_ne ha hb hab h ((of_decide_eq_true hp).trans (of_decide_eq_true hq).symm)
  | false =>
    rw [h] at hwide
    exact Nat.not_succ_le_self 1 (Nat.le_trans hwide (hs.length_ancestors_le hb hq))

theorem Lawful.exists_single_of_ancestors_eq (hs : s.Lawful) (ha : a < s.size) (hb : b < s.size) (hab : a ≠ b)
    (h : (s.node a).ancestors = (s.node b).ancestors) : ∃ p, (s.node a).ancestry = .single p := by
  refine hs.single_of_real ha ?_ (hs.real_of_ancestors_eq ha hb hab h)
  rintro rfl
  rw [hs.root] at h
  exact hab (hs.eq_zero_of_ancestors_nil hb h.symm).symm

theorem Lawful.siblings_of_eq (hs : s.Lawful) (ha : a < s.size) (hb : b < s.size) (hab : a ≠ b)
    (h : (s.node a).ancestors = (s.node b).ancestors) : ∃ p, s.Siblings p a b := by
  have hdiffer := hs.status_ne ha hb hab h
  obtain ⟨p, hp⟩ := hs.exists_single_of_ancestors_eq ha hb hab h
  obtain ⟨q, hq⟩ := hs.exists_single_of_ancestors_eq hb ha hab.symm h.symm
  rw [hs.ancestors_of_single ha hp, hs.ancestors_of_single hb hq, List.singleton_inj] at h
  exact ⟨p, hp, h ▸ hq, hdiffer⟩

/-- Only the root has a merge key that is part of a real node's. -/
theorem Lawful.eq_zero_of_strictSubset (hs : s.Lawful) (ha : a < s.size) (hb : b < s.size)
    (hreal : (s.node b).isPlaceholder = false)
    (h : Ascending.strictSubset (s.node a).ancestors (s.node b).ancestors = true) : a = 0 := by
  refine hs.eq_zero_of_ancestors_nil ha (List.eq_nil_of_length_eq_zero (Nat.lt_one_iff.mp ?_))
  exact Nat.lt_of_lt_of_le (Ascending.length_lt_of_strictSubset h) (hs.length_ancestors_le hb hreal)

theorem Lawful.meeting (hs : s.Lawful) (ha : a < s.size) (hb : b < s.size) (hab : a ≠ b) : s.Meeting a b := by
  rcases Ascending.compare_cases (hs.ascending ha) (hs.ascending hb) with heq | hsubset | hsubset | hapart
  · obtain ⟨p, hp⟩ := hs.siblings_of_eq ha hb hab heq
    exact .siblings hp
  · cases hp : (s.node b).isPlaceholder with
    | true => exact .within hp hsubset
    | false => exact .rootFirst (hs.eq_zero_of_strictSubset ha hb hp hsubset) hp
  · cases hp : (s.node a).isPlaceholder with
    | true => exact .around hp hsubset
    | false => exact .rootSecond (hs.eq_zero_of_strictSubset hb ha hp hsubset) hp
  · exact .apart hapart

/-! ### The join of two nodes that meet -/

theorem join_self (s : Store) (a : NodeId) : s.join a a = .ok (a, s) := if_pos rfl

theorem join_of_strictSubset (h : Ascending.strictSubset (s.node a).ancestors (s.node b).ancestors = true) :
    s.join a b = s.subsume (s.node b) (s.node a) ∧ s.join b a = s.subsume (s.node b) (s.node a) := by
  have hlt := Ascending.length_lt_of_strictSubset h
  have hab : a ≠ b := fun hab => Nat.lt_irrefl _ (hab ▸ hlt)
  have hkey : (s.node a).ancestors ≠ (s.node b).ancestors := fun hkey => Nat.lt_irrefl _ (hkey ▸ hlt)
  have hback : ¬ Ascending.strictSubset (s.node b).ancestors (s.node a).ancestors = true :=
    fun hback => Nat.lt_asymm hlt (Ascending.length_lt_of_strictSubset hback)
  constructor
  · simp only [join, Ascending.same_iff, if_neg hab, if_neg hkey, if_pos h]
  · simp only [join, Ascending.same_iff, if_neg hab.symm, if_neg hkey.symm, if_neg hback, if_pos h]

theorem Apart.symm (h : s.Apart a b) : s.Apart b a := ⟨h.2, h.1⟩

theorem join_of_apart (h : s.Apart a b) : s.join a b = s.findOrCreate .none (.couple a b) := by
  have hkey : (s.node a).ancestors ≠ (s.node b).ancestors := fun hkey => h.1 (hkey ▸ fun _ hx => hx)
  have hab : a ≠ b := fun hab => hkey (hab ▸ rfl)
  have hfirst : ¬ Ascending.strictSubset (s.node a).ancestors (s.node b).ancestors = true :=
    fun hsubset => h.1 fun _ => Ascending.mem_of_strictSubset hsubset
  have hsecond : ¬ Ascending.strictSubset (s.node b).ancestors (s.node a).ancestors = true :=
    fun hsubset => h.2 fun _ => Ascending.mem_of_strictSubset hsubset
  simp only [join, Ascending.same_iff, if_neg hab, if_neg hkey, if_neg hfirst, if_neg hsecond, extendPlaceholder]

theorem Siblings.symm (h : s.Siblings p a b) : s.Siblings p b a := ⟨h.second, h.first, h.differ.symm⟩

theorem Lawful.join_of_siblings (hs : s.Lawful) (ha : a < s.size) (hb : b < s.size) (h : s.Siblings p a b) :
    s.join a b =
      if (s.node a).status = .noAccess ∨ (s.node b).status = .noAccess then .error (.accessMismatch a b)
      else s.findOrCreate .hitOrMiss (.single p) := by
  have hab : a ≠ b := fun hab => h.differ (hab ▸ rfl)
  have hkey : (s.node a).ancestors = (s.node b).ancestors := by
    rw [hs.ancestors_of_single ha h.first, hs.ancestors_of_single hb h.second]
  have hreal := hs.real_of_single ha h.first
  have hreal' := hs.real_of_single hb h.second
  simp only [Store.join, Ascending.same_iff, if_neg hab, if_pos hkey, if_neg h.differ, promote, h.first, h.second, hreal,
    hreal', ne_eq, not_true_eq_false, if_false, Bool.or_self, Bool.false_eq_true]

theorem subsume_of_placeholder {sup sub : Node} (h : sup.isPlaceholder = true) :
    s.subsume sup sub = .ok (sup.id, s) := if_pos h

theorem subsume_of_real {sup sub : Node} (h : sup.isPlaceholder = false) :
    s.subsume sup sub = .error (.realSubsumption sup.id sub.id) := if_neg (ne_true_of_eq_false h)

/-- No join leads from the root to another real node. -/
theorem Lawful.join_root (hs : s.Lawful) (hb : b < s.size) (hne : b ≠ 0) (hreal : (s.node b).isPlaceholder = false) :
    s.join 0 b = .error (.realSubsumption b 0) ∧ s.join b 0 = .error (.realSubsumption b 0) := by
  obtain ⟨p, hp⟩ := hs.single_of_real hb hne hreal
  have hsubset : Ascending.strictSubset (s.node 0).ancestors (s.node b).ancestors = true := by
    rw [hs.root, hs.ancestors_of_single hb hp]
    simp [Node.root, Ascending.strictSubset, Ascending.subset]
  have hjoin := join_of_strictSubset hsubset
  rw [subsume_of_real hreal, hs.id hb, hs.id hs.pos] at hjoin
  exact hjoin

theorem findOrCreate_of_hit (hkey : s.ancestorsOf ancestry = .ok ancestors)
    (hit : s.index[NodeKey.make status ancestors]? = some n) :
    s.findOrCreate status ancestry = .ok (n, { s with usage := { s.usage with reused := s.usage.reused + 1 } }) := by
  simp only [findOrCreate, hkey, hit]

theorem findOrCreate_of_miss (hkey : s.ancestorsOf ancestry = .ok ancestors)
    (miss : s.index[NodeKey.make status ancestors]? = none) :
    s.findOrCreate status ancestry = .ok (s.size, s.push status ancestry ancestors) := by
  simp only [findOrCreate, hkey, miss]

theorem exists_findOrCreate (hkey : s.ancestorsOf ancestry = .ok ancestors) (status : Status) :
    ∃ r t, s.findOrCreate status ancestry = .ok (r, t) := by
  cases hindex : s.index[NodeKey.make status ancestors]? with
  | none => exact ⟨_, _, findOrCreate_of_miss hkey hindex⟩
  | some n => exact ⟨_, _, findOrCreate_of_hit hkey hindex⟩

theorem ancestorsOf_placeholders (ha : (s.node a).isPlaceholder = true) (hb : (s.node b).isPlaceholder = true) :
    s.ancestorsOf (.couple a b) = .error (.placeholderMerge (s.node a).id (s.node b).id) := by
  simp [ancestorsOf, ha, hb]

theorem exists_ancestorsOf (h : ¬ ((s.node a).isPlaceholder = true ∧ (s.node b).isPlaceholder = true)) :
    ∃ ancestors, s.ancestorsOf (.couple a b) = .ok ancestors := by
  unfold ancestorsOf
  cases ha : (s.node a).isPlaceholder <;> cases hb : (s.node b).isPlaceholder <;> simp_all

/-! ### Refused joins -/

/-- Observations after one node of which exactly one is no access. -/
structure Mismatched (s : Store) (a b : NodeId) : Prop where
  first : (s.node a).isPlaceholder = false
  second : (s.node b).isPlaceholder = false
  parent : ∃ p, (s.node a).parent = .ok p ∧ (s.node b).parent = .ok p
  access : ¬ ((s.node a).status = .noAccess ↔ (s.node b).status = .noAccess)

/-- Why a join of different nodes is refused. -/
inductive Refused (s : Store) (a b : NodeId) : TraceError → Prop where
  | mismatched (h : s.Mismatched a b) : Refused s a b (.accessMismatch a b)
  | rootFirst (root : a = 0) (real : (s.node b).isPlaceholder = false) : Refused s a b (.realSubsumption b a)
  | rootSecond (root : b = 0) (real : (s.node a).isPlaceholder = false) : Refused s a b (.realSubsumption a b)
  | placeholders (first : (s.node a).isPlaceholder = true) (second : (s.node b).isPlaceholder = true)
      (apart : s.Apart a b) : Refused s a b (.placeholderMerge a b)

theorem Mismatched.symm (h : s.Mismatched a b) : s.Mismatched b a where
  first := h.second
  second := h.first
  parent := by
    obtain ⟨p, hp, hq⟩ := h.parent
    exact ⟨p, hq, hp⟩
  access heq := h.access heq.symm

theorem Lawful.refused_of_join (hs : s.Lawful) (ha : a < s.size) (hb : b < s.size) (hab : a ≠ b)
    (h : s.join a b = .error e) : s.Refused a b e := by
  cases hs.meeting ha hb hab with
  | @siblings p hsiblings =>
    rw [hs.join_of_siblings ha hb hsiblings] at h
    split at h
    · rename_i hnone
      cases h
      refine .mismatched ⟨hs.real_of_single ha hsiblings.first, hs.real_of_single hb hsiblings.second,
        ⟨_, Node.parent_eq_ok.mpr hsiblings.first, Node.parent_eq_ok.mpr hsiblings.second⟩, fun heq => ?_⟩
      rcases hnone with hnone | hnone
      · exact hsiblings.differ (hnone.trans (heq.mp hnone).symm)
      · exact hsiblings.differ ((heq.mpr hnone).trans hnone.symm)
    · have hkey : s.ancestorsOf (.single p) = .ok [p] := rfl
      obtain ⟨r, t, hfound⟩ := exists_findOrCreate hkey .hitOrMiss
      rw [hfound] at h
      cases h
  | rootFirst root real =>
    subst root
    rw [(hs.join_root hb hab.symm real).1] at h
    cases h
    exact .rootFirst rfl real
  | rootSecond root real =>
    subst root
    rw [(hs.join_root ha hab real).2] at h
    cases h
    exact .rootSecond rfl real
  | within placeholder subset =>
    rw [(join_of_strictSubset subset).1, subsume_of_placeholder placeholder] at h
    cases h
  | around placeholder subset =>
    rw [(join_of_strictSubset subset).2, subsume_of_placeholder placeholder] at h
    cases h
  | apart hapart =>
    rw [join_of_apart hapart] at h
    by_cases hboth : (s.node a).isPlaceholder = true ∧ (s.node b).isPlaceholder = true
    · simp only [findOrCreate, ancestorsOf_placeholders hboth.1 hboth.2, hs.id ha, hs.id hb] at h
      cases h
      exact .placeholders hboth.1 hboth.2 hapart
    · obtain ⟨ancestors, hkey⟩ := exists_ancestorsOf hboth
      obtain ⟨r, t, hfound⟩ := exists_findOrCreate hkey .none
      rw [hfound] at h
      cases h

theorem Refused.join_eq (h : s.Refused a b e) (hs : s.Lawful) (ha : a < s.size) (hb : b < s.size) (hab : a ≠ b) :
    s.join a b = .error e := by
  cases h with
  | mismatched h =>
    obtain ⟨p, hp, hq⟩ := h.parent
    have hsiblings : s.Siblings p a b :=
      ⟨Node.parent_eq_ok.mp hp, Node.parent_eq_ok.mp hq, fun heq => h.access (by rw [heq])⟩
    rw [hs.join_of_siblings ha hb hsiblings, if_pos]
    by_contra hnone
    rw [not_or] at hnone
    exact h.access (iff_of_false hnone.1 hnone.2)
  | rootFirst root real =>
    subst root
    exact (hs.join_root hb hab.symm real).1
  | rootSecond root real =>
    subst root
    exact (hs.join_root ha hab real).2
  | placeholders first second apart =>
    simp only [join_of_apart apart, findOrCreate, ancestorsOf_placeholders first second, hs.id ha, hs.id hb]

theorem Refused.symm (h : s.Refused a b e) : ∃ e', s.Refused b a e' ∧ e'.isPlaceholderMerge = e.isPlaceholderMerge := by
  cases h with
  | mismatched h => exact ⟨_, .mismatched h.symm, rfl⟩
  | rootFirst root real => exact ⟨_, .rootSecond root real, rfl⟩
  | rootSecond root real => exact ⟨_, .rootFirst root real, rfl⟩
  | placeholders first second apart => exact ⟨_, .placeholders second first apart.symm, rfl⟩

/-! ### Joins in the other order -/

/-- The store with the predecessors of one node in the other order. -/
def swapped (s : Store) (n : NodeId) : Store :=
  { s with nodes := s.nodes.modify n fun x => { x with ancestry := x.ancestry.swap } }

theorem push_swap (s : Store) (a b : NodeId) (ancestors : List NodeId) :
    s.push .none (.couple b a) ancestors = (s.push .none (.couple a b) ancestors).swapped s.size := by
  have hcount : s.countOf .none (.couple b a) = s.countOf .none (.couple a b) := Int.add_comm _ _
  simp only [push, swapped, hcount, Store.mk.injEq, and_true]
  apply Array.ext_getElem?
  intro i
  rw [Array.getElem?_modify, Array.getElem?_push, Array.getElem?_push]
  by_cases hi : i = s.nodes.size
  · simp [hi, size, Ancestry.swap]
  · simp [hi, size, Ne.symm hi]

theorem Filed.ancestorsOf_swap (hs : s.Filed) (ha : a < s.size) (hb : b < s.size)
    (h : s.ancestorsOf (.couple a b) = .ok ancestors) : s.ancestorsOf (.couple b a) = .ok ancestors := by
  obtain ⟨ancestors', h'⟩ : ∃ ancestors', s.ancestorsOf (.couple b a) = .ok ancestors' := by
    refine exists_ancestorsOf fun hboth => ?_
    rw [ancestorsOf_placeholders hboth.2 hboth.1] at h
    cases h
  have hbelow : Ancestry.Below s.size (.couple a b) := ⟨ha, hb⟩
  have hbelow' : Ancestry.Below s.size (.couple b a) := ⟨hb, ha⟩
  have hmem : ∀ x, x ∈ ancestors' ↔ x ∈ ancestors := fun x => by
    rw [mem_ancestorsOf_couple h', mem_ancestorsOf_couple h]
    exact or_comm
  rw [h', (hs.ascending_ancestorsOf hbelow' h').eq_of_mem_iff (hs.ascending_ancestorsOf hbelow h) hmem]

/-- Of two stores that joins from one store lead to, the second is the first, but for the order of the
    predecessors of one placeholder that is new. -/
def Reordered (s : Store) (r : NodeId) (t t' : Store) : Prop :=
  t' = t ∨ r = s.size ∧ t.size = s.size + 1 ∧ (t.node r).isPlaceholder = true ∧ t' = t.swapped r

theorem Reordered.key {t' : Store} (h : s.Reordered r t t') :
    (t'.node r).status = (t.node r).status ∧ (t'.node r).ancestors = (t.node r).ancestors ∧
      t'.count r = t.count r := by
  rcases h with rfl | ⟨-, -, -, rfl⟩
  · exact ⟨rfl, rfl, rfl⟩
  · simp only [count, node, swapped, Array.getD_eq_getD_getElem?, Array.getElem?_modify, if_true]
    cases t.nodes[r]? with
    | none => exact ⟨rfl, rfl, rfl⟩
    | some x => exact ⟨rfl, rfl, rfl⟩

theorem Filed.merge_swap (hs : s.Filed) (ha : a < s.size) (hb : b < s.size)
    (h : s.findOrCreate .none (.couple a b) = .ok (r, t)) :
    ∃ t', s.findOrCreate .none (.couple b a) = .ok (r, t') ∧ s.Reordered r t t' := by
  cases findOrCreate_eq_ok h with
  | reused key hit => exact ⟨_, findOrCreate_of_hit (hs.ancestorsOf_swap ha hb key) hit, .inl rfl⟩
  | @created ancestors key miss =>
    refine ⟨_, findOrCreate_of_miss (hs.ancestorsOf_swap ha hb key) miss, .inr ⟨rfl, size_push, ?_, push_swap ..⟩⟩
    rw [node_push_size]
    rfl

theorem Lawful.join_swap (hs : s.Lawful) (ha : a < s.size) (hb : b < s.size) (h : s.join a b = .ok (r, t)) :
    ∃ t', s.join b a = .ok (r, t') ∧ s.Reordered r t t' := by
  by_cases hab : a = b
  · subst hab
    exact ⟨t, h, .inl rfl⟩
  cases hs.meeting ha hb hab with
  | siblings hsiblings =>
    refine ⟨t, ?_, .inl rfl⟩
    rw [hs.join_of_siblings ha hb hsiblings] at h
    rw [hs.join_of_siblings hb ha hsiblings.symm]
    -- Both orders ask for the same node after the common predecessor.
    split at h
    · cases h
    · rename_i hnone
      rw [if_neg fun hnone' => hnone hnone'.symm, h]
  | rootFirst root real =>
    rw [(Refused.rootFirst root real).join_eq hs ha hb hab] at h
    cases h
  | rootSecond root real =>
    rw [(Refused.rootSecond root real).join_eq hs ha hb hab] at h
    cases h
  | within placeholder subset =>
    have hjoin := join_of_strictSubset subset
    exact ⟨t, by rw [hjoin.2, ← hjoin.1, h], .inl rfl⟩
  | around placeholder subset =>
    have hjoin := join_of_strictSubset subset
    exact ⟨t, by rw [hjoin.1, ← hjoin.2, h], .inl rfl⟩
  | apart hapart =>
    rw [join_of_apart hapart] at h
    rw [join_of_apart hapart.symm]
    exact hs.merge_swap ha hb h

/-! ### Joins that are found again -/

/-- The second store has the nodes and the index of the first. -/
structure Alike (s t : Store) : Prop where
  nodes : t.nodes = s.nodes
  index : t.index = s.index

/-- Who asks for a node by its own key gets it. -/
theorem Filed.findOrCreate_key (hs : s.Filed) (hn : n < s.size)
    (hkey : s.ancestorsOf ancestry = .ok (s.node n).ancestors) :
    ∃ t, s.findOrCreate (s.node n).status ancestry = .ok (n, t) ∧ s.Alike t :=
  ⟨_, findOrCreate_of_hit hkey (hs.filed hn), rfl, rfl⟩

/-- A placeholder is the join of itself and any node of which it has all real nodes. -/
theorem Lawful.join_placeholder (hs : s.Lawful) (hn : n < s.size) (hj : j < s.size)
    (hp : (s.node j).isPlaceholder = true) (hreals : s.reals n ⊆ (s.node j).ancestors) :
    ∃ t, s.join n j = .ok (j, t) ∧ s.Alike t := by
  by_cases hnj : n = j
  · subst hnj
    exact ⟨s, join_self s n, rfl, rfl⟩
  cases hs.meeting hn hj hnj with
  | siblings hsiblings =>
    rw [hs.real_of_single hj hsiblings.second] at hp
    cases hp
  | rootFirst root real =>
    rw [real] at hp
    cases hp
  | rootSecond root real =>
    rw [root, hs.root] at hp
    cases hp
  | within placeholder subset =>
    rw [(join_of_strictSubset subset).1, subsume_of_placeholder placeholder, hs.id hj]
    exact ⟨s, rfl, rfl, rfl⟩
  | around placeholder subset =>
    rw [reals_of_placeholder placeholder] at hreals
    exact absurd hreals ((Ascending.strictSubset_iff (hs.ascending hj) (hs.ascending hn)).mp subset).2
  | apart hapart =>
    cases hq : (s.node n).isPlaceholder with
    | true =>
      rw [reals_of_placeholder hq] at hreals
      exact absurd hreals hapart.1
    | false =>
      -- The node itself is in the key, so the merge has the key of the placeholder.
      rw [reals_of_real (ne_true_of_eq_false hq), hs.id hn] at hreals
      have hkey : s.ancestorsOf (.couple n j) = .ok (s.node j).ancestors := by
        simp only [ancestorsOf, hp, hq, hs.id hn, Bool.false_and, Bool.false_eq_true, if_false, if_true]
        rw [Ascending.insert_of_mem (hs.ascending hj) (hreals (List.mem_singleton.mpr rfl))]
      have hfound := hs.findOrCreate_key hj hkey
      rw [of_decide_eq_true hp] at hfound
      rw [join_of_apart hapart]
      exact hfound

/-- An observation of a hit and a miss is the join of itself and any other access after the same node. -/
theorem Lawful.join_hitOrMiss (hs : s.Lawful) (hn : n < s.size) (hj : j < s.size)
    (hp : (s.node n).ancestry = .single p) (hq : (s.node j).ancestry = .single p)
    (hstatus : (s.node j).status = .hitOrMiss) (haccess : (s.node n).status ≠ .noAccess) :
    ∃ t, s.join n j = .ok (j, t) ∧ s.Alike t := by
  by_cases hnj : n = j
  · subst hnj
    exact ⟨s, join_self s n, rfl, rfl⟩
  have hancestors := hs.ancestors_of_single hj hq
  have hkey : s.ancestorsOf (.single p) = .ok (s.node j).ancestors := by
    rw [hancestors]
    rfl
  have hdiffer := hs.status_ne hn hj hnj ((hs.ancestors_of_single hn hp).trans hancestors.symm)
  have hnone : ¬ ((s.node n).status = .noAccess ∨ (s.node j).status = .noAccess) := by
    rw [hstatus]
    exact fun hnone => hnone.elim haccess (by simp)
  rw [hs.join_of_siblings hn hj ⟨hp, hq, hdiffer⟩, if_neg hnone, ← hstatus]
  exact hs.findOrCreate_key hj hkey

end Store

end CacheTiming
