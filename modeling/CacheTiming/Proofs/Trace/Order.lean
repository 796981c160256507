import CacheTiming.Trace.Order
import CacheTiming.Proofs.Trace.Store

/-! The order of trie nodes.

Two nodes are compared by their statuses, by the kinds of their ancestries and then by their predecessors
in the order in which these were merged. This recursion ends, since predecessors are older. What the
comparison remembers about pairs is what the recursion answers, and so is its shortcut for a node and
itself; so a statement about all comparisons is an induction over `Compares`. -/

namespace CacheTiming

/-! ### Statuses -/

namespace Status

variable {s t u : Status}

theorem subseteq_iff : s.subseteq t = true ↔ s = t ∨ t = .hitOrMiss ∧ (s = .hit ∨ s = .miss) := by
  simp [subseteq]

theorem subseteq_refl (s : Status) : s.subseteq s = true := subseteq_iff.mpr (Or.inl rfl)

theorem subseteq_trans (hst : s.subseteq t = true) (htu : t.subseteq u = true) : s.subseteq u = true := by
  rcases subseteq_iff.mp htu with rfl | ⟨rfl, ht⟩
  · exact hst
  · rcases subseteq_iff.mp hst with rfl | ⟨rfl, -⟩
    · exact htu
    · simp at ht

theorem subseteq_antisymm (hst : s.subseteq t = true) (hts : t.subseteq s = true) : s = t := by
  rcases subseteq_iff.mp hst with rfl | ⟨rfl, -⟩
  · rfl
  · rcases subseteq_iff.mp hts with rfl | ⟨-, ht⟩
    · rfl
    · simp at ht

end Status

namespace Store

variable {s : Store} {a b c p p' : NodeId} {answer answer' : Bool} {memo : Memo}

/-! ### The plain recursion -/

/-- The answer of the comparison of two nodes that remembers nothing and takes no shortcut. -/
inductive Compares (s : Store) : NodeId → NodeId → Bool → Prop where
  | status {a b : NodeId} (unrelated : (s.node a).status.subseteq (s.node b).status = false) : Compares s a b false
  | kind {a b : NodeId} (different : (s.node a).ancestry.kind ≠ (s.node b).ancestry.kind) : Compares s a b false
  | root {a b : NodeId} (related : (s.node a).status.subseteq (s.node b).status = true)
      (first : (s.node a).ancestry = .root) (second : (s.node b).ancestry = .root) : Compares s a b true
  | single {a b p q : NodeId} {answer : Bool} (related : (s.node a).status.subseteq (s.node b).status = true)
      (first : (s.node a).ancestry = .single p) (second : (s.node b).ancestry = .single q)
      (parents : Compares s p q answer) : Compares s a b answer
  /-- The second predecessors are not looked at if the first ones are unrelated. -/
  | couple_false {a b p p' q q' : NodeId} (related : (s.node a).status.subseteq (s.node b).status = true)
      (first : (s.node a).ancestry = .couple p p') (second : (s.node b).ancestry = .couple q q')
      (sides : Compares s p q false) : Compares s a b false
  | couple_true {a b p p' q q' : NodeId} {answer : Bool}
      (related : (s.node a).status.subseteq (s.node b).status = true)
      (first : (s.node a).ancestry = .couple p p') (second : (s.node b).ancestry = .couple q q')
      (sides : Compares s p q true) (sides' : Compares s p' q' answer) : Compares s a b answer

theorem Compares.unique (h : s.Compares a b answer) (h' : s.Compares a b answer') : answer = answer' := by
  induction h generalizing answer' with
  | status unrelated => cases h' <;> simp_all
  | kind different => cases h' <;> simp_all [Ancestry.kind]
  | root related first second => cases h' <;> simp_all
  | single related first second _ ih => cases h' <;> grind [Ancestry.kind]
  | couple_false related first second _ ih => cases h' <;> grind
  | couple_true related first second _ _ ih ih' => cases h' <;> grind [Ancestry.kind]

/-! ### The recursion ends, and the memo says the same -/

/-- Predecessors are older, also those of an id behind the store, which has none. -/
theorem WellFormed.below (hs : s.WellFormed) (n : NodeId) : (s.node n).ancestry.Below n := by
  rcases Nat.lt_or_ge n s.size with hn | hn
  · exact hs.older hn
  · rw [node_of_size_le hn]
    trivial

theorem WellFormed.compares_self (hs : s.WellFormed) (n : NodeId) : s.Compares n n true := by
  induction n using Nat.strongRecOn with
  | ind n ih =>
    have hstatus := (s.node n).status.subseteq_refl
    have hbelow := hs.below n
    cases hancestry : (s.node n).ancestry with
    | root => exact .root hstatus hancestry hancestry
    | single p =>
      rw [hancestry] at hbelow
      exact .single hstatus hancestry hancestry (ih p hbelow)
    | couple p p' =>
      rw [hancestry] at hbelow
      exact .couple_true hstatus hancestry hancestry (ih p hbelow.1) (ih p' hbelow.2)

/-- Whatever is remembered about two nodes is what the plain recursion answers. -/
def Faithful (s : Store) (memo : Memo) : Prop :=
  ∀ a b answer, memo[NodePair.mk a b]? = some answer → s.Compares a b answer

theorem faithful_empty (s : Store) : s.Faithful ∅ := by
  simp [Faithful]

theorem Faithful.insert (h : s.Faithful memo) (hab : s.Compares a b answer) :
    s.Faithful (memo.insert ⟨a, b⟩ answer) := by
  intro x y r hxy
  rw [Std.ExtTreeMap.getElem?_insert] at hxy
  split at hxy
  · rename_i heq
    cases Std.LawfulEqOrd.eq_of_compare heq
    cases hxy
    exact hab
  · exact h x y r hxy

/-- A comparison that starts with a faithful memo answers what the plain recursion answers, and leaves a
    faithful memo. -/
theorem WellFormed.subseteqMemo_compares (hs : s.WellFormed) (a b : NodeId) (memo : Memo) (hmemo : s.Faithful memo) :
    s.Compares a b (s.subseteqMemo a b memo).1 ∧ s.Faithful (s.subseteqMemo a b memo).2 := by
  fun_induction subseteqMemo s a b memo with
  | case1 b memo => exact ⟨hs.compares_self b, hmemo⟩
  | case2 a b memo _ answer hanswer => exact ⟨hmemo a b answer hanswer, hmemo⟩
  | case3 a b memo _ _ x y answer memo' heq ihsingle ihfirst ihsecond =>
    suffices h : s.Compares a b answer ∧ s.Faithful memo' from ⟨h.1, h.2.insert h.1⟩
    have hbelow : x.ancestry.Below a := hs.below a
    split at heq
    · rename_i hstatus
      -- The guards on ids never refuse: predecessors in a well-formed store are older.
      split at heq
      · rename_i ha hb
        cases heq
        exact ⟨.root hstatus ha hb, hmemo⟩
      · rename_i p q ha hb
        have hp : p < a := by rwa [ha] at hbelow
        rw [dif_pos hp] at heq
        have hparents := ihsingle p q hp hmemo
        rw [heq] at hparents
        exact ⟨.single hstatus ha hb hparents.1, hparents.2⟩
      · rename_i p p' q q' ha hb
        have hp : p < a ∧ p' < a := by rwa [ha] at hbelow
        rw [dif_pos hp] at heq
        have hsides := ihfirst p p' q hp hmemo
        split at heq
        · rename_i memo₁ hrun
          rw [hrun] at hsides
          have hsides' := ihsecond p p' q' hp memo₁ hsides.2
          rw [heq] at hsides'
          exact ⟨.couple_true hstatus ha hb hsides.1 hsides'.1, hsides'.2⟩
        · rename_i memo₁ hrun
          rw [hrun] at hsides
          cases heq
          exact ⟨.couple_false hstatus ha hb hsides.1, hsides.2⟩
      · rename_i hroot hsingle hcouple
        cases heq
        refine ⟨.kind fun hkind => ?_, hmemo⟩
        have hkind : x.ancestry.kind = y.ancestry.kind := hkind
        cases hx : x.ancestry <;> cases hy : y.ancestry <;> rw [hx, hy] at hkind
        case root.root => exact hroot hx hy
        case single.single => exact hsingle _ _ hx hy
        case couple.couple => exact hcouple _ _ _ _ hx hy
        all_goals cases hkind
    · rename_i hstatus
      cases heq
      exact ⟨.status (Bool.eq_false_iff.mpr hstatus), hmemo⟩

/-- The plain recursion has just one answer, which is that of the comparison. -/
theorem WellFormed.compares_iff (hs : s.WellFormed) : s.Compares a b answer ↔ answer = s.subseteq a b := by
  have hanswer : s.Compares a b (s.subseteq a b) := (hs.subseteqMemo_compares a b ∅ s.faithful_empty).1
  constructor
  · exact fun h => h.unique hanswer
  · rintro rfl
    exact hanswer

theorem WellFormed.compares_of_subseteq (hs : s.WellFormed) (h : s.subseteq a b = true) : s.Compares a b true :=
  hs.compares_iff.mpr h.symm

/-! ### Nodes that are below others -/

theorem Compares.of_root (h : s.Compares a b true) (ha : (s.node a).ancestry = .root) :
    (s.node a).status.subseteq (s.node b).status = true ∧ (s.node b).ancestry = .root := by
  cases h with
  | root related _ second => exact ⟨related, second⟩
  | single _ first => simp [ha] at first
  | couple_true _ first => simp [ha] at first

theorem Compares.of_single (h : s.Compares a b true) (ha : (s.node a).ancestry = .single p) :
    (s.node a).status.subseteq (s.node b).status = true ∧
      ∃ q, (s.node b).ancestry = .single q ∧ s.Compares p q true := by
  cases h with
  | root _ first => simp [ha] at first
  | single related first second parents =>
    rw [ha] at first
    cases first
    exact ⟨related, _, second, parents⟩
  | couple_true _ first => simp [ha] at first

theorem Compares.of_couple (h : s.Compares a b true) (ha : (s.node a).ancestry = .couple p p') :
    (s.node a).status.subseteq (s.node b).status = true ∧
      ∃ q q', (s.node b).ancestry = .couple q q' ∧ s.Compares p q true ∧ s.Compares p' q' true := by
  cases h with
  | root _ first => simp [ha] at first
  | single _ first => simp [ha] at first
  | couple_true related first second sides sides' =>
    rw [ha] at first
    cases first
    exact ⟨related, _, _, second, sides, sides'⟩

theorem Compares.trans (h : s.Compares a b true) (h' : s.Compares b c true) : s.Compares a c true := by
  generalize hanswer : true = answer at h
  induction h generalizing c with
  | status => cases hanswer
  | kind => cases hanswer
  | couple_false => cases hanswer
  | root related first second =>
    obtain ⟨related', hc⟩ := h'.of_root second
    exact .root (Status.subseteq_trans related related') first hc
  | single related first second _ ih =>
    obtain ⟨related', r, hc, hparents⟩ := h'.of_single second
    exact .single (Status.subseteq_trans related related') first hc (ih hparents hanswer)
  | couple_true related first second _ _ ih ih' =>
    obtain ⟨related', r, r', hc, hsides, hsides'⟩ := h'.of_couple second
    exact .couple_true (Status.subseteq_trans related related') first hc (ih hsides rfl) (ih' hsides' hanswer)

end Store

end CacheTiming
