import CacheTiming.Proofs.HashConsing

/-! Stores that only record observations and join nodes.

Such a store has one root. Every other real node was observed after one node, which may be a placeholder.
A placeholder is the merge of two nodes that differ, and the real nodes that it stands for are at least
two. It may be found again through other merges with the same real nodes, so what it counts has to be
said of these nodes: it counts their traces together. A merge that would count one of them twice has the
key of a placeholder that is there already, and makes no node. -/

namespace CacheTiming.Store

variable {s t : Store} {n a b p x r : NodeId} {status : Status} {ancestors ns : List NodeId} {m : Traced.Memory}
  {q : Request} {requests : List Request}

/-! ### Reachable stores -/

/-- Requests that record an observation or join two nodes. -/
def Request.Tracing : Request → Prop
  | .extend _ status => status ∈ Status.observed
  | .join .. | .widen .. => True
  | .findOrCreate .. | .extendPlaceholder .. | .promote .. => False

instance : (q : Request) → Decidable q.Tracing
  | .extend _ status => inferInstanceAs (Decidable (status ∈ Status.observed))
  | .join .. | .widen .. => isTrue trivial
  | .findOrCreate .. | .extendPlaceholder .. | .promote .. => isFalse id

/-- The stores that granted requests lead to from the initial one; refused requests change nothing. -/
inductive Reachable : Store → Prop where
  | initial : Reachable initial
  | granted {s t : Store} {q : Request} {n : NodeId} (before : Reachable s) (tracing : q.Tracing)
      (below : q.Below s.size) (answer : q.answer s = .ok (n, t)) : Reachable t

theorem Reachable.after (h : m.store.Reachable) (hq : q.Tracing) (hb : q.Below m.store.size) :
    (q.after m).store.Reachable := by
  rcases q.after_cases m with ⟨n, store, hanswer, heq⟩ | heq
  · rw [heq]
    exact .granted h hq hb hanswer
  · rw [heq]
    exact h

theorem Reachable.serve (h : m.store.Reachable) (hq : ∀ q ∈ requests, q.Tracing) (ht : Request.Timely m requests) :
    (Request.serve m requests).store.Reachable := by
  induction requests generalizing m with
  | nil => exact h
  | cons q requests ih =>
    rw [List.forall_mem_cons] at hq
    exact ih (h.after hq.1 ht.1) hq.2 ht.2

/-! ### Counting nodes together -/

theorem double_count (n : NodeId) : (s.count n).double = s.count n + s.count n := by
  rw [Count.double, Int.mul_comm]
  exact Int.two_mul _

/-- The numbers of traces of several nodes taken together. -/
def total (s : Store) (ns : List NodeId) : Count := ns.foldr (fun n before => .sum (s.count n) before) 0

@[simp] theorem total_nil : s.total [] = 0 := rfl

@[simp] theorem total_cons : s.total (n :: ns) = s.count n + s.total ns := rfl

theorem total_perm {ns' : List NodeId} (h : ns.Perm ns') : s.total ns = s.total ns' := by
  induction h with
  | nil => rfl
  | cons n _ ih => rw [total_cons, total_cons, ih]
  | swap n k ns => exact Int.add_left_comm _ _ _
  | trans _ _ ih₁ ih₂ => exact ih₁.trans ih₂

theorem Extends.count (h : s.Extends t) (hn : n < s.size) : t.count n = s.count n := by
  rw [Store.count, Store.count, h.node hn]

theorem Extends.total (h : s.Extends t) (hns : ∀ n ∈ ns, n < s.size) : t.total ns = s.total ns := by
  induction ns with
  | nil => rfl
  | cons n ns ih =>
    rw [List.forall_mem_cons] at hns
    rw [total_cons, total_cons, h.count hns.1, ih hns.2]

theorem Extends.reals (h : s.Extends t) (hn : n < s.size) : t.reals n = s.reals n := by
  rw [Store.reals, Store.reals, h.node hn]

/-- A merge has a real side, which is added to the real nodes of the other side. -/
theorem ancestorsOf_couple (h : s.ancestorsOf (.couple a b) = .ok ancestors) :
    (s.node b).isPlaceholder = false ∧ ancestors = Ascending.insert (s.reals a) (s.node b).id ∨
      (s.node a).isPlaceholder = false ∧ ancestors = Ascending.insert (s.reals b) (s.node a).id := by
  unfold ancestorsOf at h
  unfold reals
  cases ha : (s.node a).isPlaceholder <;> cases hb : (s.node b).isPlaceholder <;> simp_all

theorem WellFormed.le_of_mem_reals (hs : s.WellFormed) (hn : n < s.size) (hx : x ∈ s.reals n) : x ≤ n := by
  unfold reals at hx
  split at hx
  · exact Nat.le_of_lt (hs.lt_of_mem_ancestorsOf (Nat.le_of_lt hn) (hs.older hn) (hs.ancestors hn) x hx)
  · exact Nat.le_of_eq ((List.mem_singleton.mp hx).trans (hs.id hn))

/-! ### Lawful stores -/

/-- What a node of a lawful store is: an observation, or a placeholder for several real nodes. In both cases
    it counts the traces of the real nodes that it is or stands for. -/
structure Placed (s : Store) (n : NodeId) : Prop where
  observed : (s.node n).isPlaceholder = false → (s.node n).status ∈ Status.observed
  wide : (s.node n).isPlaceholder = true → 2 ≤ (s.node n).ancestors.length
  real : ∀ x ∈ s.reals n, (s.node x).isPlaceholder = false
  total : s.count n = s.total (s.reals n)

theorem Placed.mono (h : s.Placed n) (hext : s.Extends t) (hs : s.WellFormed) (hn : n < s.size) : t.Placed n := by
  have hlt : ∀ x ∈ s.reals n, x < s.size := fun x hx => Nat.lt_of_le_of_lt (hs.le_of_mem_reals hn hx) hn
  refine ⟨?_, ?_, ?_, ?_⟩
  · rw [hext.node hn]
    exact h.observed
  · rw [hext.node hn]
    exact h.wide
  · intro x hx
    rw [hext.reals hn] at hx
    rw [hext.node (hlt x hx)]
    exact h.real x hx
  · rw [hext.count hn, hext.reals hn, hext.total hlt]
    exact h.total

/-- A filed store whose placeholders are exactly its merges and whose nodes are placed. -/
structure Lawful (s : Store) : Prop extends s.Filed, s.Regular where
  placed : ∀ {n}, n < s.size → s.Placed n

theorem placed_of_real (h : (s.node n).isPlaceholder = false) (hid : (s.node n).id = n)
    (hstatus : (s.node n).status ∈ Status.observed) : s.Placed n := by
  have hreals : s.reals n = [n] := by rw [reals_of_real (ne_true_of_eq_false h), hid]
  refine ⟨fun _ => hstatus, fun hp => ?_, fun x hx => ?_, ?_⟩
  · rw [h] at hp
    cases hp
  · rw [hreals, List.mem_singleton] at hx
    rw [hx, h]
  · rw [hreals, total_cons, total_nil, Int.add_zero]

theorem lawful_initial : initial.Lawful where
  toFiled := filed_initial
  suits := regular_initial.suits
  placed hn := by
    obtain rfl := Nat.lt_one_iff.mp hn
    exact placed_of_real rfl rfl (by decide)

/-- Only what a new node is has to be shown when a store grows by it. -/
theorem Found.lawful {ancestry : Ancestry} (h : s.Found status ancestry n t) (hs : s.Lawful)
    (hb : ancestry.Below s.size) (hsuits : ancestry.Suits status)
    (hnew : ∀ {ancestors}, s.ancestorsOf ancestry = .ok ancestors → s.index[NodeKey.make status ancestors]? = none →
      (s.push status ancestry ancestors).Placed s.size) : t.Lawful where
  toFiled := h.filed hs.toFiled hb
  suits := (h.regular hs.toRegular hb hsuits).suits
  placed {k} hk := by
    cases h with
    | reused key hit => exact (hs.placed hk).mono (Found.reused key hit).extends hs.toWellFormed hk
    | created key miss =>
      rcases lt_size_or_eq_of_push hk with hk | rfl
      · exact (hs.placed hk).mono extends_push hs.toWellFormed hk
      · exact hnew key miss

theorem Found.lawful_single (h : s.Found status (.single p) n t) (hs : s.Lawful) (hp : p < s.size)
    (hstatus : status ∈ Status.observed) : t.Lawful := by
  have hreal : status ≠ .none := by
    rintro rfl
    revert hstatus
    decide
  refine h.lawful hs hp hreal fun key miss => placed_of_real ?_ ?_ ?_
  · rw [node_push_size]
    exact decide_eq_false hreal
  · rw [node_push_size]
  · rw [node_push_size]
    exact hstatus

theorem Lawful.ascending_reals (hs : s.Lawful) (hn : n < s.size) : (s.reals n).Pairwise (· < ·) := by
  unfold reals
  split
  · exact hs.ascending hn
  · exact List.pairwise_singleton _ _

theorem Lawful.reals_ne_nil (hs : s.Lawful) (hn : n < s.size) : s.reals n ≠ [] := by
  intro hnil
  cases hp : (s.node n).isPlaceholder with
  | true =>
    have hwide := (hs.placed hn).wide hp
    rw [← reals_of_placeholder hp, hnil] at hwide
    exact absurd hwide (by decide)
  | false =>
    rw [reals_of_real (ne_true_of_eq_false hp)] at hnil
    cases hnil

/-- A real node that is added to the real nodes of another without being one of them. -/
structure Adds (s : Store) (a b : NodeId) (ancestors : List NodeId) : Prop where
  real : (s.node b).isPlaceholder = false
  key : ancestors = Ascending.insert (s.reals a) b
  fresh : b ∉ s.reals a

/-- If a merge makes a placeholder, its real side is not among the real nodes of the other side: a
    placeholder with this one in it would have been found by the key. -/
theorem Lawful.adds_of_miss (hs : s.Lawful) (ha : a < s.size) (hb : b < s.size) (hab : a ≠ b)
    (hreal : (s.node b).isPlaceholder = false) (hkey : ancestors = Ascending.insert (s.reals a) (s.node b).id)
    (miss : s.index[NodeKey.make .none ancestors]? = none) : s.Adds a b ancestors := by
  rw [hs.id hb] at hkey
  refine ⟨hreal, hkey, fun hmem => ?_⟩
  rw [Ascending.insert_of_mem (hs.ascending_reals ha) hmem] at hkey
  cases hp : (s.node a).isPlaceholder with
  | true =>
    have hfiled := hs.filed ha
    rw [Node.key, of_decide_eq_true hp, ← reals_of_placeholder hp, ← hkey, miss] at hfiled
    cases hfiled
  | false =>
    rw [reals_of_real (ne_true_of_eq_false hp), hs.id ha, List.mem_singleton] at hmem
    exact hab hmem.symm

theorem Adds.placed {ancestry : Ancestry} (h : s.Adds a b ancestors) (hs : s.Lawful) (ha : a < s.size) (hb : b < s.size)
    (hcount : s.countOf .none ancestry = s.count a + s.count b) : (s.push .none ancestry ancestors).Placed s.size := by
  have hext : s.Extends (s.push .none ancestry ancestors) := extends_push
  have hperm : ancestors.Perm (b :: s.reals a) := h.key ▸ Ascending.perm_insert h.fresh
  have hlt : ∀ x ∈ b :: s.reals a, x < s.size := by
    refine List.forall_mem_cons.mpr ⟨hb, fun x hx => ?_⟩
    exact Nat.lt_of_le_of_lt (hs.le_of_mem_reals ha hx) ha
  have hreals : (s.push .none ancestry ancestors).reals s.size = ancestors := by
    rw [reals_of_placeholder, node_push_size]
    rw [node_push_size]
    rfl
  refine ⟨fun hp => ?_, fun _ => ?_, fun x hx => ?_, ?_⟩
  · rw [node_push_size] at hp
    cases hp
  · rw [node_push_size, hperm.length_eq]
    exact Nat.succ_le_succ (List.length_pos_of_ne_nil (hs.reals_ne_nil ha))
  · rw [hreals, hperm.mem_iff] at hx
    rw [hext.node (hlt x hx)]
    rcases List.mem_cons.mp hx with rfl | hx
    · exact h.real
    · exact (hs.placed ha).real x hx
  · -- The counts of both sides were added, and one side is a single node of the key.
    rw [hreals, total_perm hperm, hext.total hlt, total_cons, ← (hs.placed ha).total, Int.add_comm, ← hcount,
      Store.count, node_push_size]

theorem Found.lawful_couple (h : s.Found .none (.couple a b) n t) (hs : s.Lawful) (ha : a < s.size) (hb : b < s.size)
    (hab : a ≠ b) : t.Lawful := by
  refine h.lawful hs ⟨ha, hb⟩ rfl fun key miss => ?_
  rcases ancestorsOf_couple key with ⟨hreal, hkey⟩ | ⟨hreal, hkey⟩
  · exact (hs.adds_of_miss ha hb hab hreal hkey miss).placed hs ha hb rfl
  · exact (hs.adds_of_miss hb ha hab.symm hreal hkey miss).placed hs hb ha (Int.add_comm _ _)

theorem Lawful.extend (hs : s.Lawful) (hn : n < s.size) (hstatus : status ∈ Status.observed)
    (h : s.extend n status = .ok (r, t)) : t.Lawful := (extend_eq_ok h).2.lawful_single hs hn hstatus

theorem Lawful.join (hs : s.Lawful) (ha : a < s.size) (hb : b < s.size) (h : s.join a b = .ok (r, t)) : t.Lawful := by
  by_cases hab : a = b
  · rw [Store.join, if_pos hab] at h
    cases h
    exact hs
  · cases join_eq_ok h with
    | same => exact hs
    | promoted shared first second real found =>
      obtain ⟨p, hp, -, -, found⟩ := hs.promoted_single ha shared first real found
      exact found.lawful_single hs hp (by decide)
    | second => exact hs
    | first => exact hs
    | merged found => exact found.lawful_couple hs ha hb hab

theorem Reachable.lawful (h : s.Reachable) : s.Lawful := by
  induction h with
  | initial => exact lawful_initial
  | @granted s t q n before tracing below answer ih =>
    cases q with
    | extend k status => exact ih.extend below tracing answer
    | join a b => exact ih.join below.1 below.2 answer
    | widen a b => exact ih.join below.1 below.2 answer
    | findOrCreate => cases tracing
    | extendPlaceholder => cases tracing
    | promote => cases tracing

/-! ### The shape of nodes -/

theorem WellFormed.ancestors_of_single (hs : s.WellFormed) (hn : n < s.size) (h : (s.node n).ancestry = .single p) :
    (s.node n).ancestors = [p] := by
  have hancestors := hs.ancestors hn
  rw [h] at hancestors
  injection hancestors with hancestors
  exact hancestors.symm

theorem Lawful.eq_zero_of_root (hs : s.Lawful) (hn : n < s.size) (h : (s.node n).ancestry = .root) : n = 0 := by
  have hstatus := hs.suits hn
  have hancestors := hs.ancestors hn
  rw [h] at hstatus hancestors
  injection hancestors with hancestors
  -- It observed what the root did after nothing, so it has the root's key.
  refine hs.eq_of_key hn hs.pos ?_
  rw [hs.root, Node.key, hstatus, ← hancestors]
  rfl

theorem Regular.real_of_single (hs : s.Regular) (hn : n < s.size) (h : (s.node n).ancestry = .single p) :
    (s.node n).isPlaceholder = false := by
  have hsuits := hs.suits hn
  rw [h] at hsuits
  have hstatus : (s.node n).status ≠ .none := hsuits
  exact decide_eq_false hstatus

/-- Every real node but the root was observed after one node. -/
theorem Lawful.single_of_real (hs : s.Lawful) (hn : n < s.size) (hne : n ≠ 0)
    (hreal : (s.node n).isPlaceholder = false) : ∃ p, (s.node n).ancestry = .single p := by
  have hsuits := hs.suits hn
  cases hancestry : (s.node n).ancestry with
  | root => exact absurd (hs.eq_zero_of_root hn hancestry) hne
  | single p => exact ⟨p, rfl⟩
  | couple a b =>
    rw [hancestry] at hsuits
    have hnone : (s.node n).status = .none := hsuits
    exact absurd hnone (of_decide_eq_false hreal)

theorem Lawful.eq_zero_of_ancestors_nil (hs : s.Lawful) (hn : n < s.size) (h : (s.node n).ancestors = []) : n = 0 := by
  by_contra hne
  cases hp : (s.node n).isPlaceholder with
  | true =>
    have hwide := (hs.placed hn).wide hp
    rw [h] at hwide
    exact absurd hwide (by decide)
  | false =>
    obtain ⟨p, hancestry⟩ := hs.single_of_real hn hne hp
    rw [hs.ancestors_of_single hn hancestry] at h
    cases h

theorem Lawful.length_ancestors_le (hs : s.Lawful) (hn : n < s.size) (hreal : (s.node n).isPlaceholder = false) :
    (s.node n).ancestors.length ≤ 1 := by
  by_cases hne : n = 0
  · rw [hne, hs.root]
    exact Nat.zero_le 1
  · obtain ⟨p, hp⟩ := hs.single_of_real hn hne hreal
    rw [hs.ancestors_of_single hn hp]
    exact Nat.le_of_eq rfl

end CacheTiming.Store
