import CacheTiming.Proofs.Trace.Observation
import CacheTiming.Proofs.Trace.Order
import Mathlib.Data.List.ProdSigma
import Mathlib.Data.Set.Card

/-! The traces that a trie node stands for.

The root stands for the empty trace, an observation adds to the traces of its parent what its status
allows, and a placeholder stands for the traces of both its sides. Nodes are found by their merge key,
so that the traces of a placeholder depend only on the real nodes in its key. Joining two nodes keeps
the traces of both, except where a placeholder is to stand for a real node whose predecessors it
includes; the count of a node is at least the number of its traces. -/

namespace CacheTiming

/-- The statuses of nodes with an ancestry: nodes without predecessors observed nothing, and exactly the
    merges are placeholders. -/
def Ancestry.Suits (status : Status) : Ancestry → Prop
  | .root => status = .noAccess
  | .single _ => status ≠ .none
  | .couple .. => status = .none

namespace Store

variable {s t : Store} {n a b r : NodeId} {status : Status} {ancestry : Ancestry} {trace : List Observation}

/-- The traces that end in a node. -/
inductive Spells (s : Store) : NodeId → List Observation → Prop where
  | root {n : NodeId} (h : (s.node n).ancestry = .root) : Spells s n []
  | single {n p : NodeId} {trace : List Observation} {o : Observation} (h : (s.node n).ancestry = .single p)
      (before : Spells s p trace) (seen : o ∈ (s.node n).status.observations) : Spells s n (trace ++ [o])
  | first {n a b : NodeId} {trace : List Observation} (h : (s.node n).ancestry = .couple a b)
      (before : Spells s a trace) : Spells s n trace
  | second {n a b : NodeId} {trace : List Observation} (h : (s.node n).ancestry = .couple a b)
      (before : Spells s b trace) : Spells s n trace

theorem spells_root (h : (s.node n).ancestry = .root) : s.Spells n trace ↔ trace = [] := by
  constructor
  · intro hspells
    cases hspells with
    | root => rfl
    | single h' => simp [h] at h'
    | first h' => simp [h] at h'
    | second h' => simp [h] at h'
  · rintro rfl
    exact .root h

theorem spells_single {p : NodeId} (h : (s.node n).ancestry = .single p) :
    s.Spells n trace ↔ ∃ before, ∃ o ∈ (s.node n).status.observations, s.Spells p before ∧ trace = before ++ [o] := by
  constructor
  · intro hspells
    cases hspells with
    | root h' => simp [h] at h'
    | single h' before seen =>
      rw [h] at h'
      cases h'
      exact ⟨_, _, seen, before, rfl⟩
    | first h' => simp [h] at h'
    | second h' => simp [h] at h'
  · rintro ⟨before, o, ho, hbefore, rfl⟩
    exact .single h hbefore ho

theorem spells_couple (h : (s.node n).ancestry = .couple a b) :
    s.Spells n trace ↔ s.Spells a trace ∨ s.Spells b trace := by
  constructor
  · intro hspells
    cases hspells with
    | root h' => simp [h] at h'
    | single h' => simp [h] at h'
    | first h' before =>
      rw [h] at h'
      cases h'
      exact Or.inl before
    | second h' before =>
      rw [h] at h'
      cases h'
      exact Or.inr before
  · rintro (hspells | hspells)
    · exact .first h hspells
    · exact .second h hspells

/-- Growing stores do not change the traces of nodes. -/
theorem Extends.spells (h : s.Extends t) (hs : s.WellFormed) (hn : n < s.size) :
    t.Spells n trace ↔ s.Spells n trace := by
  induction n using Nat.strongRecOn generalizing trace with
  | ind n ih =>
    have hnode := h.node hn
    have hb := hs.older hn
    cases hancestry : (s.node n).ancestry with
    | root => rw [spells_root hancestry, spells_root (hnode ▸ hancestry)]
    | single p =>
      rw [hancestry] at hb
      rw [spells_single hancestry, spells_single (hnode ▸ hancestry), hnode]
      simp only [ih p hb (Nat.lt_trans hb hn)]
    | couple a b =>
      rw [hancestry] at hb
      rw [spells_couple hancestry, spells_couple (hnode ▸ hancestry), ih a hb.1 (Nat.lt_trans hb.1 hn),
        ih b hb.2 (Nat.lt_trans hb.2 hn)]

/-! ### The order of nodes -/

/-- All traces of a node are traces of another. -/
def Under (s : Store) (a b : NodeId) : Prop := ∀ ⦃trace⦄, s.Spells a trace → s.Spells b trace

theorem Under.refl (s : Store) (n : NodeId) : s.Under n n := fun _ => id

theorem Extends.under (h : s.Extends t) (hs : s.WellFormed) (ha : a < s.size) (hb : b < s.size) (hab : s.Under a b) :
    t.Under a b := fun _ htrace => (h.spells hs hb).mpr (hab ((h.spells hs ha).mp htrace))

theorem under_single {p q : NodeId} (ha : (s.node a).ancestry = .single p) (hb : (s.node b).ancestry = .single q)
    (hstatus : (s.node a).status.subseteq (s.node b).status = true) (h : s.Under p q) : s.Under a b := by
  intro trace htrace
  obtain ⟨before, o, ho, hbefore, rfl⟩ := (spells_single ha).mp htrace
  exact .single hb (h hbefore) (Status.mem_observations_of_subseteq hstatus ho)

theorem under_couple {p p' q q' : NodeId} (ha : (s.node a).ancestry = .couple p p')
    (hb : (s.node b).ancestry = .couple q q') (h : s.Under p q) (h' : s.Under p' q') : s.Under a b := by
  intro trace htrace
  rcases (spells_couple ha).mp htrace with htrace | htrace
  · exact .first hb (h htrace)
  · exact .second hb (h' htrace)

theorem under_of_compares (h : s.Compares a b true) : s.Under a b := by
  generalize hanswer : true = answer at h
  induction h with
  | status => cases hanswer
  | kind => cases hanswer
  | couple_false => cases hanswer
  | root related first second => exact fun trace htrace => (spells_root first).mp htrace ▸ .root second
  | single related first second _ ih => exact under_single first second related (ih hanswer)
  | couple_true related first second _ _ ih ih' => exact under_couple first second (ih rfl) (ih' hanswer)

theorem WellFormed.under_of_subseteq (hs : s.WellFormed) (h : s.subseteq a b = true) : s.Under a b :=
  under_of_compares (hs.compares_of_subseteq h)

/-! ### Regular stores -/

/-- A well-formed store whose placeholders are exactly its merges. -/
structure Regular (s : Store) : Prop extends WellFormed s where
  suits : ∀ {n}, n < s.size → (s.node n).ancestry.Suits (s.node n).status

theorem regular_initial : initial.Regular where
  toWellFormed := wellFormed_initial
  suits hn := by
    have hn : _ = 0 := Nat.lt_one_iff.mp hn
    rw [hn]
    rfl

theorem Found.regular (h : s.Found status ancestry n t) (hs : s.Regular) (hb : ancestry.Below s.size)
    (hsuits : ancestry.Suits status) : t.Regular where
  toWellFormed := h.wellFormed hs.toWellFormed hb
  suits {n} hn := by
    cases h with
    | reused key hit => exact hs.suits hn
    | created key miss =>
      rcases lt_size_or_eq_of_push hn with hn | rfl
      · rw [node_push_of_lt hn]
        exact hs.suits hn
      · rw [node_push_size]
        exact hsuits

theorem Regular.couple_of_placeholder (hs : s.Regular) (hn : n < s.size) (h : (s.node n).isPlaceholder = true) :
    ∃ a b, (s.node n).ancestry = .couple a b := by
  have hstatus : (s.node n).status = .none := of_decide_eq_true h
  have hsuits := hs.suits hn
  rw [hstatus] at hsuits
  cases hancestry : (s.node n).ancestry with
  | root => simp [hancestry, Ancestry.Suits] at hsuits
  | single p => simp [hancestry, Ancestry.Suits] at hsuits
  | couple a b => exact ⟨a, b, rfl⟩

/-- A real node whose merge key is one node was observed after that node. -/
theorem Regular.single_of_ancestors (hs : s.Regular) (hn : n < s.size) {p : NodeId}
    (hstatus : (s.node n).status ≠ .none) (hancestors : (s.node n).ancestors = [p]) :
    (s.node n).ancestry = .single p := by
  have hkey := hs.ancestors hn
  rw [hancestors] at hkey
  cases hancestry : (s.node n).ancestry with
  | root => simp [hancestry, ancestorsOf] at hkey
  | single q =>
    rw [hancestry] at hkey
    cases hkey
    rfl
  | couple a b =>
    have hsuits := hs.suits hn
    rw [hancestry] at hsuits
    exact absurd hsuits hstatus

/-- The traces of a node are those of the real nodes that it is or stands for. -/
theorem Regular.spells_iff (hs : s.Regular) (hn : n < s.size) :
    s.Spells n trace ↔ ∃ x ∈ s.reals n, s.Spells x trace := by
  induction n using Nat.strongRecOn with
  | ind n ih =>
    by_cases hp : (s.node n).isPlaceholder = true
    · obtain ⟨a, b, hancestry⟩ := hs.couple_of_placeholder hn hp
      have hb := hs.older hn
      have hkey := hs.ancestors hn
      rw [hancestry] at hb hkey
      rw [spells_couple hancestry, ih a hb.1 (Nat.lt_trans hb.1 hn), ih b hb.2 (Nat.lt_trans hb.2 hn),
        reals_of_placeholder hp]
      simp only [mem_ancestorsOf_couple hkey, or_and_right, exists_or]
    · rw [reals_of_real hp, hs.id hn]
      simp

theorem Regular.under_of_reals_subset (hs : s.Regular) (ha : a < s.size) (hb : b < s.size)
    (h : ∀ x ∈ s.reals a, x ∈ s.reals b) : s.Under a b := by
  intro trace htrace
  obtain ⟨x, hx, htrace⟩ := (hs.spells_iff ha).mp htrace
  exact (hs.spells_iff hb).mpr ⟨x, h x hx, htrace⟩

/-! ### Extending and joining -/

/-- An operation has made the second, regular store of the first and returns one of its nodes. -/
structure Yields (s t : Store) (n : NodeId) : Prop where
  regular : t.Regular
  grown : s.Extends t
  lt : n < t.size

theorem Found.yields (h : s.Found status ancestry n t) (hs : s.Regular) (hb : ancestry.Below s.size)
    (hsuits : ancestry.Suits status) : s.Yields t n :=
  ⟨h.regular hs hb hsuits, h.extends, h.lt_size hs.toWellFormed⟩

/-- Who asks for an observation after a node gets one. -/
theorem Found.node_single {p : NodeId} (h : s.Found status (.single p) n t) (hs : s.Regular) (hp : p < s.size)
    (hsize : s.size ≤ UInt32.size) (hstatus : status ≠ .none) :
    (t.node n).status = status ∧ (t.node n).ancestry = .single p := by
  obtain ⟨hkey, hancestors⟩ := h.key hs.toWellFormed hp hsize
  have hy := h.yields hs hp hstatus
  injection hancestors with hancestors
  exact ⟨hkey, hy.regular.single_of_ancestors hy.lt (hkey ▸ hstatus) hancestors.symm⟩

/-- Who asks for a merge gets a placeholder for the real nodes of both sides, whatever merges these went
    through. -/
theorem Found.spells_couple (h : s.Found .none (.couple a b) n t) (hs : s.Regular) (ha : a < s.size) (hb : b < s.size)
    (hsize : s.size ≤ UInt32.size) : t.Spells n trace ↔ t.Spells a trace ∨ t.Spells b trace := by
  have hbelow : Ancestry.Below s.size (.couple a b) := ⟨ha, hb⟩
  have hy := h.yields hs hbelow rfl
  obtain ⟨hstatus, hkey⟩ := h.key hs.toWellFormed hbelow hsize
  rw [← hy.grown.ancestorsOf hbelow] at hkey
  rw [hy.regular.spells_iff hy.lt, hy.regular.spells_iff (Nat.lt_of_lt_of_le ha hy.grown.size),
    hy.regular.spells_iff (Nat.lt_of_lt_of_le hb hy.grown.size), reals_of_placeholder (decide_eq_true hstatus)]
  simp only [mem_ancestorsOf_couple hkey, or_and_right, exists_or]

theorem extend_eq_ok (h : s.extend n status = .ok (r, t)) : status ≠ .none ∧ s.Found status (.single n) r t := by
  unfold extend at h
  split at h
  · cases h
  · rename_i hstatus
    exact ⟨hstatus, findOrCreate_eq_ok h⟩

theorem Regular.extend (hs : s.Regular) (hn : n < s.size) (h : s.extend n status = .ok (r, t)) : s.Yields t r := by
  obtain ⟨hstatus, hfound⟩ := extend_eq_ok h
  exact hfound.yields hs hn hstatus

/-- Extending a node leads to the observation of the status after it. -/
theorem Regular.node_extend (hs : s.Regular) (hn : n < s.size) (hsize : s.size ≤ UInt32.size)
    (h : s.extend n status = .ok (r, t)) : (t.node r).status = status ∧ (t.node r).ancestry = .single n := by
  obtain ⟨hstatus, hfound⟩ := extend_eq_ok h
  exact hfound.node_single hs hn hsize hstatus

/-- Whether a placeholder is to stand for a real node only since its merge key includes that node's. -/
def hides (s : Store) (sup sub : NodeId) : Bool :=
  (s.node sup).isPlaceholder && !(s.node sub).isPlaceholder &&
    Ascending.strictSubset (s.node sub).ancestors (s.node sup).ancestors

/-- The node and the store that a join leads to. -/
inductive Joined (s : Store) (a b : NodeId) : NodeId → Store → Prop where
  | same (eq : a = b) : Joined s a b a s
  | promoted {r : NodeId} {t : Store} (shared : (s.node a).ancestry = (s.node b).ancestry)
      (first : (s.node a).status ≠ .noAccess) (second : (s.node b).status ≠ .noAccess)
      (real : (s.node a).status ≠ .none) (found : s.Found .hitOrMiss (s.node a).ancestry r t) : Joined s a b r t
  | second (placeholder : (s.node b).isPlaceholder = true)
      (subset : Ascending.strictSubset (s.node a).ancestors (s.node b).ancestors = true) :
      Joined s a b (s.node b).id s
  | first (placeholder : (s.node a).isPlaceholder = true)
      (subset : Ascending.strictSubset (s.node b).ancestors (s.node a).ancestors = true) :
      Joined s a b (s.node a).id s
  | merged {r : NodeId} {t : Store} (found : s.Found .none (.couple a b) r t) : Joined s a b r t

theorem promote_eq_ok (h : s.promote a b = .ok (r, t)) :
    (s.node a).ancestry = (s.node b).ancestry ∧ (s.node a).status ≠ .none ∧
      s.Found .hitOrMiss (s.node a).ancestry r t := by
  simp only [promote] at h
  split at h
  · cases h
  rename_i hshared
  split at h
  · cases h
  rename_i hreal
  refine ⟨Decidable.not_not.mp hshared, fun hnone => hreal ?_, findOrCreate_eq_ok h⟩
  simp [Node.isPlaceholder, hnone]

theorem subsume_eq_ok {sup sub : Node} (h : s.subsume sup sub = .ok (r, t)) :
    sup.isPlaceholder = true ∧ r = sup.id ∧ t = s := by
  unfold subsume at h
  split at h
  · rename_i hplaceholder
    cases h
    exact ⟨hplaceholder, rfl, rfl⟩
  · cases h

theorem join_eq_ok (h : s.join a b = .ok (r, t)) : s.Joined a b r t := by
  simp only [join] at h
  split at h
  · rename_i heq
    cases h
    exact .same heq
  split at h
  · split at h
    · cases h
    split at h
    · cases h
    rename_i haccess
    rw [not_or] at haccess
    obtain ⟨hshared, hreal, hfound⟩ := promote_eq_ok h
    exact .promoted hshared haccess.1 haccess.2 hreal hfound
  split at h
  · rename_i hsubset
    obtain ⟨hplaceholder, rfl, rfl⟩ := subsume_eq_ok h
    exact .second hplaceholder hsubset
  split at h
  · rename_i hsubset
    obtain ⟨hplaceholder, rfl, rfl⟩ := subsume_eq_ok h
    exact .first hplaceholder hsubset
  · exact .merged (findOrCreate_eq_ok h)

/-- Real nodes that are no steps without access were observed after one node. -/
theorem Regular.exists_single (hs : s.Regular) (hn : n < s.size) (haccess : (s.node n).status ≠ .noAccess)
    (hreal : (s.node n).status ≠ .none) : ∃ p, (s.node n).ancestry = .single p := by
  have hsuits := hs.suits hn
  cases hancestry : (s.node n).ancestry with
  | root =>
    rw [hancestry] at hsuits
    exact absurd hsuits haccess
  | single p => exact ⟨p, rfl⟩
  | couple a b =>
    rw [hancestry] at hsuits
    exact absurd hsuits hreal

/-- Nodes that are promoted were observed after one node, and so is what they are promoted to. -/
theorem Regular.promoted_single (hs : s.Regular) (ha : a < s.size) (shared : (s.node a).ancestry = (s.node b).ancestry)
    (haccess : (s.node a).status ≠ .noAccess) (hreal : (s.node a).status ≠ .none)
    (hfound : s.Found .hitOrMiss (s.node a).ancestry r t) :
    ∃ p < s.size, (s.node a).ancestry = .single p ∧ (s.node b).ancestry = .single p ∧
      s.Found .hitOrMiss (.single p) r t := by
  obtain ⟨p, hp⟩ := hs.exists_single ha haccess hreal
  have hbelow := hs.older ha
  rw [hp] at shared hfound hbelow
  exact ⟨p, Nat.lt_trans hbelow ha, hp, shared.symm, hfound⟩

theorem Joined.yields (h : s.Joined a b r t) (hs : s.Regular) (ha : a < s.size) (hb : b < s.size) : s.Yields t r := by
  cases h with
  | same => exact ⟨hs, .refl s, ha⟩
  | promoted shared first second real found =>
    obtain ⟨p, hp, -, -, found⟩ := hs.promoted_single ha shared first real found
    exact found.yields hs hp nofun
  | second => exact ⟨hs, .refl s, (hs.id hb).symm ▸ hb⟩
  | first => exact ⟨hs, .refl s, (hs.id ha).symm ▸ ha⟩
  | merged found => exact found.yields hs ⟨ha, hb⟩ rfl

/-- A placeholder that does not hide a node of a smaller merge key stands for all its traces. -/
theorem Regular.under_of_strictSubset (hs : s.Regular) (ha : a < s.size) (hb : b < s.size)
    (hplaceholder : (s.node b).isPlaceholder = true)
    (hsubset : Ascending.strictSubset (s.node a).ancestors (s.node b).ancestors = true)
    (hkeep : s.hides b a = false) : s.Under a b := by
  have hplaceholder' : (s.node a).isPlaceholder = true := by
    simpa [hides, hplaceholder, hsubset] using hkeep
  refine hs.under_of_reals_subset ha hb fun x hx => ?_
  rw [reals_of_placeholder hplaceholder'] at hx
  rw [reals_of_placeholder hplaceholder]
  exact Ascending.mem_of_strictSubset hsubset hx

/-- Both of two joined nodes have only traces of the result, unless a real node is hidden. -/
theorem Joined.under (h : s.Joined a b r t) (hs : s.Regular) (ha : a < s.size) (hb : b < s.size)
    (hsize : s.size ≤ UInt32.size) (hab : s.hides a b = false) (hba : s.hides b a = false) :
    t.Under a r ∧ t.Under b r := by
  have hy := h.yields hs ha hb
  cases h with
  | same heq =>
    subst heq
    exact ⟨.refl s a, .refl s a⟩
  | promoted shared first second real found =>
    obtain ⟨p, hp, ha', hb', found⟩ := hs.promoted_single ha shared first real found
    obtain ⟨hstatus, hr⟩ := found.node_single hs hp hsize (by simp)
    -- Both nodes were observed after `p`, and the result allows a hit and a miss there.
    have hunder : ∀ {n}, n < s.size → (s.node n).ancestry = .single p → (s.node n).status ≠ .noAccess →
        t.Under n r := by
      intro n hn hsingle haccess trace htrace
      rw [← hy.grown.node hn] at hsingle haccess
      obtain ⟨before, o, ho, hbefore, rfl⟩ := (spells_single hsingle).mp htrace
      exact .single hr hbefore (hstatus ▸ Status.mem_observations_hitOrMiss haccess ho)
    exact ⟨hunder ha ha' first, hunder hb hb' second⟩
  | second hplaceholder hsubset =>
    rw [hs.id hb]
    exact ⟨hs.under_of_strictSubset ha hb hplaceholder hsubset hba, .refl s b⟩
  | first hplaceholder hsubset =>
    rw [hs.id ha]
    exact ⟨.refl s a, hs.under_of_strictSubset hb ha hplaceholder hsubset hab⟩
  | merged found =>
    exact ⟨fun _ htrace => (found.spells_couple hs ha hb hsize).mpr (.inl htrace),
      fun _ htrace => (found.spells_couple hs ha hb hsize).mpr (.inr htrace)⟩

/-! ### Counting -/

theorem length_observations_le (status : Status) :
    status.observations.length ≤ if status = .hitOrMiss then 2 else 1 := by
  cases status <;> simp [Status.observations]

theorem countOf_eq (s : Store) (status : Status) (ancestry : Ancestry) :
    s.countOf status ancestry =
      (match ancestry with
      | .root => 1
      | .single p => s.count p
      | .couple a b => s.count a + s.count b) * (if status = .hitOrMiss then 2 else 1 : Nat) := by
  cases ancestry <;> by_cases h : status = .hitOrMiss <;> simp [countOf, Count.one, Count.sum, Count.double, h]

/-- A node has no more traces than it counts. -/
theorem WellFormed.exists_traces (hs : s.WellFormed) (n : NodeId) :
    ∃ traces : List (List Observation), (traces.length : Int) ≤ s.count n ∧
      ∀ trace, s.Spells n trace → trace ∈ traces := by
  induction n using Nat.strongRecOn with
  | ind n ih =>
    rcases Nat.lt_or_ge n s.size with hn | hn
    swap
    · -- An id behind the store reads as the root.
      have hroot := node_of_size_le hn
      refine ⟨[[]], by rw [Store.count, hroot]; exact Int.le_refl _, fun trace htrace => ?_⟩
      rw [(spells_root (hroot ▸ rfl)).mp htrace]
      exact List.mem_singleton.mpr rfl
    have hb := hs.older hn
    have hcount : s.count n = s.countOf (s.node n).status (s.node n).ancestry := hs.count hn
    have hseen := length_observations_le (s.node n).status
    have hpos : 1 ≤ if (s.node n).status = .hitOrMiss then 2 else 1 := by split <;> decide
    rw [countOf_eq] at hcount
    generalize (if (s.node n).status = .hitOrMiss then 2 else 1) = factor at hseen hpos hcount
    have hfactor : (1 : Int) ≤ factor := Int.ofNat_le.mpr hpos
    rw [hcount]
    cases hancestry : (s.node n).ancestry with
    | root =>
      refine ⟨[[]], ?_, fun trace htrace => ?_⟩
      · exact Int.le_trans hfactor (Int.le_of_eq (Int.one_mul _).symm)
      · rw [(spells_root hancestry).mp htrace]
        exact List.mem_singleton.mpr rfl
    | single p =>
      rw [hancestry] at hb
      obtain ⟨traces, hlength, hall⟩ := ih p hb
      refine ⟨(traces ×ˢ (s.node n).status.observations).map fun t => t.1 ++ [t.2], ?_, ?_⟩
      · rw [List.length_map, List.length_product, Int.natCast_mul]
        exact Int.mul_le_mul hlength (Int.ofNat_le.mpr hseen) (Int.natCast_nonneg _)
          (Int.le_trans (Int.natCast_nonneg _) hlength)
      · intro trace htrace
        obtain ⟨before, o, ho, hbefore, rfl⟩ := (spells_single hancestry).mp htrace
        exact List.mem_map.mpr ⟨(before, o), List.mem_product.mpr ⟨hall before hbefore, ho⟩, rfl⟩
    | couple a b =>
      rw [hancestry] at hb
      obtain ⟨traces, hlength, hall⟩ := ih a hb.1
      obtain ⟨traces', hlength', hall'⟩ := ih b hb.2
      refine ⟨traces ++ traces', ?_, fun trace htrace => ?_⟩
      · rw [List.length_append, Int.natCast_add]
        calc (traces.length : Int) + traces'.length
            ≤ s.count a + s.count b := Int.add_le_add hlength hlength'
          _ = (s.count a + s.count b) * 1 := (Int.mul_one _).symm
          _ ≤ (s.count a + s.count b) * factor := Int.mul_le_mul_of_nonneg_left hfactor (by omega)
      · rcases (spells_couple hancestry).mp htrace with htrace | htrace
        · exact List.mem_append_left _ (hall trace htrace)
        · exact List.mem_append_right _ (hall' trace htrace)

theorem WellFormed.count_nonneg (hs : s.WellFormed) (n : NodeId) : 0 ≤ s.count n := by
  obtain ⟨traces, hlength, -⟩ := hs.exists_traces n
  exact Int.le_trans (Int.natCast_nonneg _) hlength

/-- Traces that a node spells are finitely many, and no more than the node counts. -/
theorem WellFormed.ncard_le_count (hs : s.WellFormed) {traces : Set (List Observation)}
    (h : ∀ trace ∈ traces, s.Spells n trace) : traces.Finite ∧ (traces.ncard : Int) ≤ s.count n := by
  obtain ⟨list, hlength, hall⟩ := hs.exists_traces n
  have hsub : traces ⊆ (list.toFinset : Set (List Observation)) := fun trace htrace => by
    simpa using hall trace (h trace htrace)
  refine ⟨list.toFinset.finite_toSet.subset hsub, ?_⟩
  calc (traces.ncard : Int)
      ≤ (list.toFinset : Set (List Observation)).ncard :=
        Int.ofNat_le.mpr (Set.ncard_le_ncard hsub list.toFinset.finite_toSet)
    _ = list.toFinset.card := by rw [Set.ncard_coe_finset]
    _ ≤ list.length := Int.ofNat_le.mpr list.toFinset_card_le
    _ ≤ s.count n := hlength

end Store

end CacheTiming
