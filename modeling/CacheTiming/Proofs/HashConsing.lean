import CacheTiming.Proofs.Domain.Traced
import CacheTiming.Proofs.Trace.Language
import CacheTiming.Report

/-! Every history is kept once.

Whatever a store is asked for, it answers with a node that it has or makes one. A node is made only if
its key is not in the index, and then it is entered there, so that the index always leads from the keys
of the nodes to the nodes and from nothing else. Merge keys are ascending and hold older nodes only;
as long as ids fit their four bytes, nodes with different statuses or merge keys have different keys. -/

namespace CacheTiming

/-- The key that a node is found by. -/
def Node.key (n : Node) : NodeKey := .make n.status n.ancestors

namespace Store

/-- What a store can be asked for. -/
inductive Request where
  | findOrCreate (status : Status) (asked : Ancestry.Asked)
  | extend (n : NodeId) (status : Status)
  | extendPlaceholder (asked : Ancestry.Asked)
  | promote (a b : NodeId)
  | join (a b : NodeId)
  | widen (a b : NodeId)

namespace Request

/-- The answer of a store, with the store after it. -/
def answer (s : Store) : Request → Except TraceError (NodeId × Store)
  | .findOrCreate status asked => asked.resolve >>= s.findOrCreate status
  | .extend n status => s.extend n status
  | .extendPlaceholder asked => asked.resolve >>= s.extendPlaceholder
  | .promote a b => s.promote a b
  | .join a b => s.join a b
  | .widen a b => s.widen a b

/-- All nodes that a request names are below a bound. -/
def Below (bound : NodeId) : Request → Prop
  | .findOrCreate _ (.known ancestry) | .extendPlaceholder (.known ancestry) => ancestry.Below bound
  | .findOrCreate _ (.unknown ..) | .extendPlaceholder (.unknown ..) => True
  | .extend n _ => n < bound
  | .promote a b | .join a b | .widen a b => a < bound ∧ b < bound

instance (bound : NodeId) : (r : Request) → Decidable (r.Below bound)
  | .findOrCreate _ (.known ancestry) | .extendPlaceholder (.known ancestry) =>
    inferInstanceAs (Decidable (ancestry.Below bound))
  | .findOrCreate _ (.unknown ..) | .extendPlaceholder (.unknown ..) => isTrue trivial
  | .extend n _ => inferInstanceAs (Decidable (n < bound))
  | .promote a b | .join a b | .widen a b => inferInstanceAs (Decidable (a < bound ∧ b < bound))

/-- Asks the store of a memory. -/
def run (r : Request) : Action Traced.Memory NodeId := Traced.inStore r.answer

/-- The memory after a request that was granted or refused. -/
def after (m : Traced.Memory) (r : Request) : Traced.Memory :=
  match r.run m with
  | .ok _ m' => m'
  | .error _ m' => m'

/-- The memory after requests in their order. -/
def serve (m : Traced.Memory) (requests : List Request) : Traced.Memory := requests.foldl after m

/-- Each request is for nodes that exist when it is made. -/
def Timely : Traced.Memory → List Request → Prop
  | _, [] => True
  | m, r :: requests => r.Below m.store.size ∧ Timely (r.after m) requests

instance decidableTimely : (m : Traced.Memory) → (requests : List Request) → Decidable (Timely m requests)
  | _, [] => isTrue trivial
  | m, r :: requests =>
    have := decidableTimely (r.after m) requests
    inferInstanceAs (Decidable (r.Below m.store.size ∧ Timely (r.after m) requests))

end Request

variable {s t : Store} {n a b : NodeId} {status : Status} {ancestry : Ancestry}
  {ancestors : List NodeId} {r : Request} {requests : List Request} {m m' : Traced.Memory}

/-! ### Stores that are filed -/

/-- A well-formed store whose nodes have ascending merge keys, are found by their keys, and were counted. -/
structure Filed (s : Store) : Prop extends s.WellFormed where
  ascending : ∀ {n}, n < s.size → (s.node n).ancestors.Pairwise (· < ·)
  filed : ∀ {n}, n < s.size → s.index[(s.node n).key]? = some n
  created : s.usage.created + 1 = s.size
  placeholders : s.usage.placeholders = s.nodes.countP Node.isPlaceholder

theorem filed_initial : initial.Filed where
  toWellFormed := wellFormed_initial
  ascending hn := by
    obtain rfl := Nat.lt_one_iff.mp hn
    exact .nil
  filed hn := by
    obtain rfl := Nat.lt_one_iff.mp hn
    exact Std.ExtTreeMap.getElem?_insert_self
  created := rfl
  placeholders := rfl

theorem Filed.ascending_ancestorsOf (hs : s.Filed) (hb : ancestry.Below s.size)
    (h : s.ancestorsOf ancestry = .ok ancestors) : ancestors.Pairwise (· < ·) := by
  cases ancestry with
  | root =>
    cases h
    exact .nil
  | single p =>
    cases h
    exact List.pairwise_singleton _ p
  | couple a b =>
    simp only [ancestorsOf] at h
    split at h
    · cases h
    split at h
    · cases h
      exact Ascending.pairwise_insert (hs.ascending hb.1)
    split at h
    · cases h
      exact Ascending.pairwise_insert (hs.ascending hb.2)
    · cases h
      exact Ascending.pairwise_insert (List.pairwise_singleton _ _)

/-- A node whose key is not in the index is entered there beside all others. -/
theorem Filed.push (hs : s.Filed) (hb : ancestry.Below s.size) (ha : s.ancestorsOf ancestry = .ok ancestors)
    (miss : s.index[NodeKey.make status ancestors]? = none) : (s.push status ancestry ancestors).Filed where
  toWellFormed := hs.toWellFormed.push hb ha
  ascending {n} hn := by
    rcases lt_size_or_eq_of_push hn with hn | rfl
    · rw [node_push_of_lt hn]
      exact hs.ascending hn
    · rw [node_push_size]
      exact hs.ascending_ancestorsOf hb ha
  filed {n} hn := by
    rcases lt_size_or_eq_of_push hn with hn | rfl
    · rw [node_push_of_lt hn, Store.push, Std.ExtTreeMap.getElem?_insert, if_neg, hs.filed hn]
      intro heq
      rw [Std.LawfulEqOrd.eq_of_compare heq, hs.filed hn] at miss
      cases miss
    · rw [node_push_size]
      exact Std.ExtTreeMap.getElem?_insert_self
  created := by
    rw [size_push, ← hs.created]
    rfl
  placeholders := by
    show s.usage.placeholders + _ = _
    rw [hs.placeholders]
    simp [Store.push, Array.countP_push, Node.isPlaceholder]

theorem Found.filed (h : s.Found status ancestry n t) (hs : s.Filed) (hb : ancestry.Below s.size) : t.Filed := by
  cases h with
  | reused key hit =>
    have hwell := (Found.reused key hit).wellFormed hs.toWellFormed hb
    exact ⟨hwell, hs.ascending, hs.filed, hs.created, hs.placeholders⟩
  | created key miss => exact hs.push hb key miss

/-- No two nodes are found by one key. -/
theorem Filed.eq_of_key (hs : s.Filed) (ha : a < s.size) (hb : b < s.size) (h : (s.node a).key = (s.node b).key) :
    a = b := by
  have hfiled := hs.filed ha
  rw [h, hs.filed hb] at hfiled
  exact (Option.some.inj hfiled).symm

theorem Filed.status_ne (hs : s.Filed) (ha : a < s.size) (hb : b < s.size) (hab : a ≠ b)
    (h : (s.node a).ancestors = (s.node b).ancestors) : (s.node a).status ≠ (s.node b).status := by
  intro hstatus
  refine hab (hs.eq_of_key ha hb ?_)
  rw [Node.key, Node.key, hstatus, h]

/-! ### Requests -/

/-- What a granted request leads to: a node that was there before, or the node that a status and an
    ancestry ask for. -/
inductive Granted (s : Store) : NodeId → Store → Prop where
  | known {n : NodeId} (lt : n < s.size) : Granted s n s
  | found {status : Status} {ancestry : Ancestry} {n : NodeId} {t : Store} (found : s.Found status ancestry n t)
      (below : ancestry.Below s.size) : Granted s n t

theorem Granted.filed (h : s.Granted n t) (hs : s.Filed) : t.Filed := by
  cases h with
  | known lt => exact hs
  | found found below => exact found.filed hs below

theorem Granted.extends (h : s.Granted n t) : s.Extends t := by
  cases h with
  | known lt => exact .refl s
  | found found below => exact found.extends

theorem Granted.lt_size (h : s.Granted n t) (hs : s.WellFormed) : n < t.size := by
  cases h with
  | known lt => exact lt
  | found found below => exact found.lt_size hs

theorem Joined.granted (h : s.Joined a b n t) (hs : s.WellFormed) (ha : a < s.size) (hb : b < s.size) :
    s.Granted n t := by
  cases h with
  | same eq => exact .known ha
  | promoted shared first second real found => exact .found found ((hs.older ha).mono (Nat.le_of_lt ha))
  | second placeholder subset => exact .known ((hs.id hb).symm ▸ hb)
  | first placeholder subset => exact .known ((hs.id ha).symm ▸ ha)
  | merged found => exact .found found ⟨ha, hb⟩

theorem Request.answer_eq_ok (hs : s.WellFormed) (hr : r.Below s.size) (h : r.answer s = .ok (n, t)) :
    s.Granted n t := by
  cases r with
  | findOrCreate status asked =>
    cases asked with
    | known ancestry => exact .found (findOrCreate_eq_ok h) hr
    | unknown => cases h
  | extend k status => exact .found (extend_eq_ok h).2 hr
  | extendPlaceholder asked =>
    cases asked with
    | known ancestry => exact .found (findOrCreate_eq_ok h) hr
    | unknown => cases h
  | promote a b =>
    obtain ⟨-, -, hfound⟩ := promote_eq_ok h
    exact .found hfound ((hs.older hr.1).mono (Nat.le_of_lt hr.1))
  | join a b => exact (join_eq_ok h).granted hs hr.1 hr.2
  | widen a b => exact (join_eq_ok h).granted hs hr.1 hr.2

/-- A request is granted, or it is refused and changes nothing. -/
theorem Request.after_cases (r : Request) (m : Traced.Memory) :
    (∃ n store, r.answer m.store = .ok (n, store) ∧ r.after m = { m with store }) ∨ r.after m = m := by
  unfold after
  cases h : r.run m with
  | ok n m' =>
    obtain ⟨store, hstore, rfl⟩ := Traced.inStore_eq_ok.mp h
    exact Or.inl ⟨n, store, hstore, rfl⟩
  | error e m' =>
    obtain ⟨_, -, -, rfl⟩ := Traced.inStore_eq_error h
    exact Or.inr rfl

theorem Filed.after (h : m.store.Filed) (hr : r.Below m.store.size) : (r.after m).store.Filed := by
  rcases r.after_cases m with ⟨n, store, hanswer, heq⟩ | heq
  · rw [heq]
    exact (r.answer_eq_ok h.toWellFormed hr hanswer).filed h
  · rw [heq]
    exact h

theorem Filed.serve (h : m.store.Filed) (hr : Request.Timely m requests) : (Request.serve m requests).store.Filed := by
  induction requests generalizing m with
  | nil => exact h
  | cons r requests ih => exact ih (h.after hr.1) hr.2

/-! ### Keys -/

/-- Nodes are numbered in the order in which they were made, each with older predecessors only, and there is
    one node for a status and a merge key. -/
structure HashConsed (s : Store) : Prop where
  numbered : ∀ n < s.size, (s.node n).id = n
  older : ∀ n < s.size, (s.node n).ancestry.Below n
  ascending : ∀ n < s.size, (s.node n).ancestors.Pairwise (· < ·)
  /-- The index leads from the keys of the nodes to the nodes, and from no other key. -/
  indexed : ∀ key n, s.index[key]? = some n ↔ n < s.size ∧ (s.node n).key = key
  unique : ∀ i < s.size, ∀ j < s.size, (s.node i).status = (s.node j).status →
    (s.node i).ancestors = (s.node j).ancestors → i = j
  /-- Keys tell statuses and lists of nodes apart. -/
  distinct : ∀ status status' ids ids', (∀ x ∈ ids, x < s.size) → (∀ x ∈ ids', x < s.size) →
    NodeKey.make status ids = NodeKey.make status' ids' → status = status' ∧ ids = ids'
  /-- Who asks for a status after some predecessors gets the node with that status and their merge key. -/
  answers : ∀ status ancestry n t, ancestry.Below s.size → s.findOrCreate status ancestry = .ok (n, t) →
    (t.node n).status = status ∧ s.ancestorsOf ancestry = .ok (t.node n).ancestors

theorem Filed.hashConsed (hs : s.Filed) (hsize : s.size ≤ UInt32.size) : s.HashConsed where
  numbered _ hn := hs.id hn
  older _ hn := hs.older hn
  ascending _ hn := hs.ascending hn
  indexed key n := by
    constructor
    · exact fun h => hs.index h
    · rintro ⟨hn, rfl⟩
      exact hs.filed hn
  unique i hi j hj hstatus hancestors := by
    have hkey : (s.node i).key = (s.node j).key := by rw [Node.key, Node.key, hstatus, hancestors]
    exact hs.eq_of_key hi hj hkey
  distinct status status' ids ids' hids hids' h :=
    NodeKey.make_inj (fun x hx => Nat.lt_of_lt_of_le (hids x hx) hsize)
      (fun x hx => Nat.lt_of_lt_of_le (hids' x hx) hsize) h
  answers status ancestry n t hb h := (findOrCreate_eq_ok h).key hs.toWellFormed hb hsize

/-- After any sequence of requests every node is kept once, nodes and placeholders were counted, and any
    further request keeps the nodes that are there, and the whole memory if it is refused. -/
theorem requests_hash_consed (h : Request.Timely {} requests) (hm : Request.serve {} requests = m)
    (hsize : m.store.size ≤ UInt32.size) :
    m.store.HashConsed ∧
    (Metrics.of m.store.usage m.losses).nodesCreated = m.store.size - 1 ∧
    (Metrics.of m.store.usage m.losses).placeholders = m.store.nodes.countP Node.isPlaceholder ∧
    ∀ r : Request, r.Below m.store.size →
      m.store.Extends (r.after m).store ∧
      (∀ n m', r.run m = .ok n m' → n < m'.store.size) ∧ ∀ e m', r.run m = .error e m' → m' = m := by
  have hfiled : m.store.Filed := hm ▸ filed_initial.serve h
  refine ⟨hfiled.hashConsed hsize, Nat.eq_sub_of_add_eq hfiled.created, hfiled.placeholders, fun r hr => ⟨?_, ?_, ?_⟩⟩
  · rcases r.after_cases m with ⟨n, store, hanswer, heq⟩ | heq
    · rw [heq]
      exact (r.answer_eq_ok hfiled.toWellFormed hr hanswer).extends
    · rw [heq]
      exact .refl m.store
  · intro n m' hrun
    obtain ⟨store, hanswer, rfl⟩ := Traced.inStore_eq_ok.mp hrun
    exact (r.answer_eq_ok hfiled.toWellFormed hr hanswer).lt_size hfiled.toWellFormed
  · intro e m' hrun
    obtain ⟨_, -, -, rfl⟩ := Traced.inStore_eq_error hrun
    rfl

/-- Requests that lead through a placeholder, to a merge of a node with itself, and to a kind of ancestry
    that does not exist. -/
def Request.sample : List Request :=
  [.extend 0 .hit, .extend 0 .miss, .extend 1 .hit, .join 3 2, .findOrCreate .none (.known (.couple 4 1)),
    .findOrCreate (.ofByte 200) (.known (.couple 1 1)), .extendPlaceholder (.unknown 7 (by decide)), .join 1 2]

theorem sample_hash_consed :
    ∃ m, Request.Timely {} Request.sample ∧ Request.serve {} Request.sample = m ∧ m.store.size = 8 ∧
      (m.store.node 5).ancestors = [1, 2, 3] ∧ (m.store.node 6).ancestors = [1] ∧ m.store.HashConsed ∧
      (Metrics.of m.store.usage m.losses).nodesCreated = 7 ∧ (Metrics.of m.store.usage m.losses).placeholders = 2 := by
  have htimely : Request.Timely {} Request.sample := by decide +kernel
  have hsize : (Request.serve {} Request.sample).store.size = 8 := by decide +kernel
  obtain ⟨hconsed, hcreated, hplaceholders, -⟩ := requests_hash_consed htimely rfl (by rw [hsize]; decide)
  refine ⟨_, htimely, rfl, hsize, by decide +kernel, by decide +kernel, hconsed, ?_, ?_⟩
  · rw [hcreated, hsize]
  · rw [hplaceholders]
    decide +kernel

end Store

end CacheTiming
