import CacheTiming.Trace.Join
import CacheTiming.Proofs.Ascending

/-! Stores of trie nodes only grow, and every node is what the store made of its ancestry.

A node is found by its status and its merge key, packed into bytes. As long as ids fit the four bytes
they are packed into, the node that is found has the status and the merge key that were asked for. -/

namespace CacheTiming

/-! ### Keys -/

namespace NodeKey

theorem packId_inj {m n : Nat} (hm : m < UInt32.size) (hn : n < UInt32.size) (h : packId m = packId n) : m = n := by
  simp only [packId, List.cons.injEq, and_true, ← UInt8.toNat_inj, Nat.toUInt8_eq, UInt8.toNat_ofNat',
    Nat.shiftRight_eq_div_pow, Nat.reducePow] at h
  simp only [UInt32.size] at hm hn
  omega

theorem flatMap_packId_inj : ∀ {xs ys : List NodeId}, (∀ x ∈ xs, x < UInt32.size) → (∀ y ∈ ys, y < UInt32.size) →
    xs.flatMap packId = ys.flatMap packId → xs = ys
  | [], [], _, _, _ => rfl
  | [], _ :: _, _, _, h => by simp [packId] at h
  | _ :: _, [], _, _, h => by simp [packId] at h
  | x :: xs, y :: ys, hxs, hys, h => by
    simp only [List.forall_mem_cons] at hxs hys
    rw [List.flatMap_cons, List.flatMap_cons] at h
    obtain ⟨hhead, htail⟩ := List.append_inj h rfl
    rw [packId_inj hxs.1 hys.1 hhead, flatMap_packId_inj hxs.2 hys.2 htail]

/-- Keys tell statuses and lists of ids apart. -/
theorem make_inj {s t : Status} {xs ys : List NodeId} (hxs : ∀ x ∈ xs, x < UInt32.size)
    (hys : ∀ y ∈ ys, y < UInt32.size) (h : make s xs = make t ys) : s = t ∧ xs = ys := by
  injection h with hstatus hpacked
  exact ⟨Status.toByte_inj.mp hstatus, flatMap_packId_inj hxs hys hpacked⟩

end NodeKey

/-- All predecessors are below a bound. -/
def Ancestry.Below (bound : NodeId) : Ancestry → Prop
  | .root => True
  | .single p => p < bound
  | .couple a b => a < bound ∧ b < bound

instance (bound : NodeId) : (a : Ancestry) → Decidable (a.Below bound)
  | .root => isTrue trivial
  | .single p => inferInstanceAs (Decidable (p < bound))
  | .couple a b => inferInstanceAs (Decidable (a < bound ∧ b < bound))

theorem Ancestry.Below.mono {m n : NodeId} {a : Ancestry} (h : a.Below m) (hmn : m ≤ n) : a.Below n := by
  cases a with
  | root => trivial
  | single p => exact Nat.lt_of_lt_of_le h hmn
  | couple a b => exact ⟨Nat.lt_of_lt_of_le h.1 hmn, Nat.lt_of_lt_of_le h.2 hmn⟩

namespace Store

variable {s t u : Store} {n : NodeId} {status : Status} {ancestry : Ancestry} {ancestors : List NodeId}

/-! ### Growth -/

/-- The second store holds all nodes of the first. -/
structure Extends (s t : Store) : Prop where
  size : s.size ≤ t.size
  node : ∀ {n}, n < s.size → t.node n = s.node n

theorem Extends.refl (s : Store) : s.Extends s := ⟨Nat.le_refl _, fun _ => rfl⟩

theorem Extends.trans (h₁ : s.Extends t) (h₂ : t.Extends u) : s.Extends u where
  size := Nat.le_trans h₁.size h₂.size
  node hn := (h₂.node (Nat.lt_of_lt_of_le hn h₁.size)).trans (h₁.node hn)

theorem Extends.ancestorsOf (h : s.Extends t) (hb : ancestry.Below s.size) :
    t.ancestorsOf ancestry = s.ancestorsOf ancestry := by
  cases ancestry with
  | root => rfl
  | single p => rfl
  | couple a b => simp only [Store.ancestorsOf, h.node hb.1, h.node hb.2]

theorem Extends.countOf (h : s.Extends t) (hb : ancestry.Below s.size) :
    t.countOf status ancestry = s.countOf status ancestry := by
  cases ancestry with
  | root => rfl
  | single p => simp only [Store.countOf, count, h.node hb]
  | couple a b => simp only [Store.countOf, count, h.node hb.1, h.node hb.2]

theorem node_of_size_le (h : s.size ≤ n) : s.node n = .root := by
  have h : s.nodes.size ≤ n := h
  simp [node, Array.getD_eq_getD_getElem?, h]

@[simp] theorem size_push : (s.push status ancestry ancestors).size = s.size + 1 := Array.size_push ..

theorem lt_size_or_eq_of_push (hn : n < (s.push status ancestry ancestors).size) : n < s.size ∨ n = s.size :=
  Nat.lt_or_eq_of_le (Nat.le_of_lt_succ (Nat.lt_of_lt_of_eq hn size_push))

theorem node_push_of_lt (hn : n < s.size) : (s.push status ancestry ancestors).node n = s.node n := by
  have hne : n ≠ s.nodes.size := Nat.ne_of_lt hn
  simp only [node, push, Array.getD_eq_getD_getElem?, Array.getElem?_push, if_neg hne]

theorem node_push_size : (s.push status ancestry ancestors).node s.size =
    { id := s.size, status, ancestry, ancestors, count := s.countOf status ancestry } := by
  simp [node, push, size]

theorem extends_push : s.Extends (s.push status ancestry ancestors) :=
  ⟨size_push ▸ Nat.le_succ _, node_push_of_lt⟩

/-! ### The nearest real nodes -/

/-- The node itself, or the real nodes that a placeholder stands for. -/
def reals (s : Store) (n : NodeId) : List NodeId :=
  if (s.node n).isPlaceholder then (s.node n).ancestors else [(s.node n).id]

theorem reals_of_placeholder (h : (s.node n).isPlaceholder = true) : s.reals n = (s.node n).ancestors := if_pos h

theorem reals_of_real (h : ¬ (s.node n).isPlaceholder = true) : s.reals n = [(s.node n).id] := if_neg h

theorem mem_ancestorsOf_couple {a b x : NodeId} (h : s.ancestorsOf (.couple a b) = .ok ancestors) :
    x ∈ ancestors ↔ x ∈ s.reals a ∨ x ∈ s.reals b := by
  simp only [ancestorsOf] at h
  split at h
  · cases h
  rename_i hboth
  split at h
  · rename_i ha
    have hb : ¬ (s.node b).isPlaceholder = true := fun hb => hboth (by simp [ha, hb])
    cases h
    rw [reals_of_placeholder ha, reals_of_real hb, Ascending.mem_insert, List.mem_singleton]
    exact or_comm
  · rename_i ha
    split at h
    · rename_i hb
      cases h
      rw [reals_of_real ha, reals_of_placeholder hb, Ascending.mem_insert, List.mem_singleton]
    · rename_i hb
      cases h
      rw [reals_of_real ha, reals_of_real hb, Ascending.mem_insert, List.mem_singleton, List.mem_singleton]
      exact or_comm

/-! ### Well-formed stores -/

/-- Every node is what the store makes of its status and ancestry, and the index leads to nodes with the
    keys that are looked up. -/
structure WellFormed (s : Store) : Prop where
  root : s.node 0 = .root
  pos : 0 < s.size
  id : ∀ {n}, n < s.size → (s.node n).id = n
  older : ∀ {n}, n < s.size → (s.node n).ancestry.Below n
  ancestors : ∀ {n}, n < s.size → s.ancestorsOf (s.node n).ancestry = .ok (s.node n).ancestors
  count : ∀ {n}, n < s.size → (s.node n).count = s.countOf (s.node n).status (s.node n).ancestry
  index : ∀ {k n}, s.index[k]? = some n → n < s.size ∧ NodeKey.make (s.node n).status (s.node n).ancestors = k

theorem wellFormed_initial : initial.WellFormed := by
  have hnode : ∀ {n}, n < initial.size → initial.node n = .root := by
    intro n hn
    have hn : n = 0 := Nat.lt_one_iff.mp hn
    rw [hn]
    rfl
  refine ⟨rfl, Nat.zero_lt_one, fun hn => ?_, fun hn => ?_, fun hn => ?_, fun hn => ?_, fun {k n} hk => ?_⟩
  · rw [hnode hn]
    exact (Nat.lt_one_iff.mp hn).symm
  · rw [hnode hn]
    trivial
  · rw [hnode hn]
    rfl
  · rw [hnode hn]
    rfl
  · simp only [initial, Std.ExtTreeMap.getElem?_insert] at hk
    split at hk
    · rename_i heq
      cases hk
      exact ⟨Nat.zero_lt_one, Std.LawfulEqOrd.eq_of_compare heq⟩
    · simp at hk

/-- The nodes of a store stay what they are when it grows, and so does the index that leads to them. -/
theorem WellFormed.push (hs : s.WellFormed) (hb : ancestry.Below s.size)
    (ha : s.ancestorsOf ancestry = .ok ancestors) : (s.push status ancestry ancestors).WellFormed := by
  have hext : s.Extends (s.push status ancestry ancestors) := extends_push
  refine ⟨?_, ?_, fun {n} hn => ?_, fun {n} hn => ?_, fun {n} hn => ?_, fun {n} hn => ?_, fun {k n} hk => ?_⟩
  · rw [hext.node hs.pos, hs.root]
  · exact Nat.lt_of_lt_of_le hs.pos hext.size
  · rcases lt_size_or_eq_of_push hn with hn | rfl
    · rw [hext.node hn, hs.id hn]
    · rw [node_push_size]
  · rcases lt_size_or_eq_of_push hn with hn | rfl
    · rw [hext.node hn]
      exact hs.older hn
    · rw [node_push_size]
      exact hb
  · rcases lt_size_or_eq_of_push hn with hn | rfl
    · rw [hext.node hn, hext.ancestorsOf ((hs.older hn).mono (Nat.le_of_lt hn)), hs.ancestors hn]
    · rw [node_push_size, hext.ancestorsOf hb, ha]
  · rcases lt_size_or_eq_of_push hn with hn | rfl
    · rw [hext.node hn, hext.countOf ((hs.older hn).mono (Nat.le_of_lt hn)), hs.count hn]
    · rw [node_push_size, hext.countOf hb]
  · simp only [Store.push, Std.ExtTreeMap.getElem?_insert] at hk
    split at hk
    · rename_i heq
      cases hk
      refine ⟨size_push ▸ Nat.lt_succ_self _, ?_⟩
      rw [node_push_size]
      exact Std.LawfulEqOrd.eq_of_compare heq
    · obtain ⟨hn, hkey⟩ := hs.index hk
      refine ⟨Nat.lt_of_lt_of_le hn hext.size, ?_⟩
      rw [hext.node hn, hkey]

/-- A merge key holds only nodes that are older than what it is the key of. -/
theorem WellFormed.lt_of_mem_ancestorsOf (hs : s.WellFormed) {bound : Nat} (hbound : bound ≤ s.size)
    (hb : ancestry.Below bound) (ha : s.ancestorsOf ancestry = .ok ancestors) : ∀ x ∈ ancestors, x < bound := by
  induction bound using Nat.strongRecOn generalizing ancestry ancestors with
  | ind bound ih =>
    intro x hx
    have hreals : ∀ {n}, n < bound → x ∈ s.reals n → x < bound := by
      intro n hn hx
      have hlt := Nat.lt_of_lt_of_le hn hbound
      rw [reals] at hx
      split at hx
      · exact Nat.lt_trans (ih n hn (Nat.le_of_lt hlt) (hs.older hlt) (hs.ancestors hlt) x hx) hn
      · rw [List.mem_singleton.mp hx, hs.id hlt]
        exact hn
    cases ancestry with
    | root =>
      cases ha
      cases hx
    | single p =>
      cases ha
      rw [List.mem_singleton.mp hx]
      exact hb
    | couple a b =>
      rcases (mem_ancestorsOf_couple ha).mp hx with hx | hx
      · exact hreals hb.1 hx
      · exact hreals hb.2 hx

/-! ### Finding nodes -/

/-- The node and the store that a request for a node leads to. -/
inductive Found (s : Store) (status : Status) (ancestry : Ancestry) : NodeId → Store → Prop where
  | reused {ancestors : List NodeId} {n : NodeId} (key : s.ancestorsOf ancestry = .ok ancestors)
      (hit : s.index[NodeKey.make status ancestors]? = some n) :
      Found s status ancestry n { s with usage := { s.usage with reused := s.usage.reused + 1 } }
  | created {ancestors : List NodeId} (key : s.ancestorsOf ancestry = .ok ancestors)
      (miss : s.index[NodeKey.make status ancestors]? = none) :
      Found s status ancestry s.size (s.push status ancestry ancestors)

theorem findOrCreate_eq_ok (h : s.findOrCreate status ancestry = .ok (n, t)) : s.Found status ancestry n t := by
  unfold findOrCreate at h
  cases hkey : s.ancestorsOf ancestry with
  | error e =>
    simp only [hkey] at h
    cases h
  | ok ancestors =>
    simp only [hkey] at h
    cases hindex : s.index[NodeKey.make status ancestors]? with
    | none =>
      simp only [hindex] at h
      cases h
      exact .created hkey hindex
    | some n =>
      simp only [hindex] at h
      cases h
      exact .reused hkey hindex

theorem Found.extends (h : s.Found status ancestry n t) : s.Extends t := by
  cases h with
  | reused key hit => exact ⟨Nat.le_refl _, fun _ => rfl⟩
  | created key miss => exact extends_push

theorem Found.wellFormed (h : s.Found status ancestry n t) (hs : s.WellFormed) (hb : ancestry.Below s.size) :
    t.WellFormed := by
  cases h with
  | reused key hit => exact ⟨hs.root, hs.pos, hs.id, hs.older, hs.ancestors, hs.count, hs.index⟩
  | created key miss => exact hs.push hb key

theorem Found.lt_size (h : s.Found status ancestry n t) (hs : s.WellFormed) : n < t.size := by
  cases h with
  | reused key hit => exact (hs.index hit).1
  | created key miss => exact size_push ▸ Nat.lt_succ_self _

/-- The node has the status and the merge key that were asked for. -/
theorem Found.key (h : s.Found status ancestry n t) (hs : s.WellFormed) (hb : ancestry.Below s.size)
    (hsize : s.size ≤ UInt32.size) :
    (t.node n).status = status ∧ s.ancestorsOf ancestry = .ok (t.node n).ancestors := by
  cases h with
  | @reused ancestors n key hit =>
    obtain ⟨hn, hkey⟩ := hs.index hit
    have hold : ∀ x ∈ (s.node n).ancestors, x < UInt32.size := fun x hx =>
      Nat.lt_of_lt_of_le (hs.lt_of_mem_ancestorsOf (Nat.le_of_lt hn) (hs.older hn) (hs.ancestors hn) x hx)
        (Nat.le_trans (Nat.le_of_lt hn) hsize)
    have hnew : ∀ x ∈ ancestors, x < UInt32.size := fun x hx =>
      Nat.lt_of_lt_of_le (hs.lt_of_mem_ancestorsOf (Nat.le_refl _) hb key x hx) hsize
    obtain ⟨hstatus, hancestors⟩ := NodeKey.make_inj hold hnew hkey
    exact ⟨hstatus, hancestors ▸ key⟩
  | created key miss =>
    rw [node_push_size]
    exact ⟨rfl, key⟩

end Store

end CacheTiming
