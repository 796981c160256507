import CacheTiming.Proofs.Cache.Reachable

/-! Accesses visit the entries of a cache in any order.

An access goes through the entries once, and overwrites and drops entries while it does so. Each step changes only
the entry that it visits and looks at nothing but this entry and the age of the accessed block. So steps commute, and
every order in which all entries are visited leaves the same cache. -/

namespace CacheTiming

/-- The ages of a block after an access to another block of its set, whose age was in `used`. A block that is surely
    evicted stays so. -/
def AgeRange.passed (r used : AgeRange) (evicted : UInt8) : AgeRange :=
  if r.lo = evicted then r else r.aged used evicted

namespace AgeCache

variable {c c' : AgeCache} {used a b x : UInt64} {r s t : AgeRange} {visited order : List UInt64}

/-! ### Steps -/

theorem getElem?_setAge (c : AgeCache) (b : UInt64) (r : AgeRange) (x : UInt64) :
    (c.setAge b r).ages[x]? = if x = b then (if r = c.default then none else some r) else c.ages[x]? := by
  unfold setAge
  by_cases hx : x = b
  · by_cases hr : r = c.default
    · simp [hx, hr]
    · simp [hx, hr]
  · by_cases hr : r = c.default
    · simp [hr, hx, Std.ExtTreeMap.getElem?_erase, Ne.symm hx]
    · simp [hr, hx, Std.ExtTreeMap.getElem?_insert, Ne.symm hx]

theorem setAge_comm (hab : a ≠ b) (c : AgeCache) (r s : AgeRange) :
    (c.setAge a r).setAge b s = (c.setAge b s).setAge a r := by
  have hages : ((c.setAge a r).setAge b s).ages = ((c.setAge b s).setAge a r).ages := by
    refine Std.ExtTreeMap.ext_getElem? fun x => ?_
    simp only [getElem?_setAge]
    by_cases hx : x = a
    · rw [if_neg (hx ▸ hab), if_pos hx, if_pos hx]
      rfl
    · rw [if_neg hx, if_neg hx]
      rfl
  exact congrArg (fun ages => { c with ages : AgeCache }) hages

theorem mem_ageBlock_of_ne (hx : x ≠ b) : x ∈ (ageBlock used r c b).ages ↔ x ∈ c.ages := by
  rw [ageBlock_eq]
  split
  · exact mem_setAge_of_ne hx
  · rfl

/-- A step changes nothing that another step looks at. -/
theorem ageBlock_comm (used : UInt64) (r : AgeRange) (c : AgeCache) (a b : UInt64) :
    ageBlock used r (ageBlock used r c a) b = ageBlock used r (ageBlock used r c b) a := by
  by_cases hab : a = b
  · rw [hab]
  simp only [ageBlock_eq]
  by_cases ha : c.Exposed used a <;> by_cases hb : c.Exposed used b
  · simp [ha, hb, exposed_setAge hab, exposed_setAge (Ne.symm hab), hab, Ne.symm hab, setAge_comm hab]
  · simp [ha, hb, exposed_setAge (Ne.symm hab)]
  · simp [ha, hb, exposed_setAge hab]
  · simp [ha, hb]

/-! ### Passes -/

/-- A pass over the entries: each step visits an entry that is still there and was not visited before, until there is
    none. The steps follow `order` and lead from the second cache to the last one. -/
inductive Sweep (used : UInt64) (r : AgeRange) : List UInt64 → AgeCache → List UInt64 → AgeCache → Prop where
  | done {visited : List UInt64} {c : AgeCache} (all : ∀ b ∈ c.ages, b ∈ visited) : Sweep used r visited c [] c
  | visit {visited order : List UInt64} {c c' : AgeCache} {b : UInt64} (entry : b ∈ c.ages) (new : b ∉ visited)
      (rest : Sweep used r (b :: visited) (ageBlock used r c b) order c') : Sweep used r visited c (b :: order) c'

/-- A pass visits each entry once. -/
theorem sweep_iff :
    Sweep used r visited c order c' ↔
      order.Nodup ∧ (∀ x, x ∈ order ↔ x ∈ c.ages ∧ x ∉ visited) ∧ c' = order.foldl (ageBlock used r) c := by
  induction order generalizing visited c with
  | nil =>
    constructor
    · rintro ⟨all⟩
      refine ⟨List.nodup_nil, fun x => ?_, rfl⟩
      simpa using all x
    · rintro ⟨-, hall, rfl⟩
      exact .done fun b hb => by simpa [hb] using hall b
  | cons b order ih =>
    have hothers : ∀ x, x ∈ (ageBlock used r c b).ages ∧ x ∉ b :: visited ↔ x ≠ b ∧ x ∈ c.ages ∧ x ∉ visited := by
      intro x
      by_cases hx : x = b
      · simp [hx]
      · simp [hx, mem_ageBlock_of_ne hx]
    constructor
    · intro h
      cases h with
      | visit entry new rest =>
        obtain ⟨hnodup, hmem, rfl⟩ := ih.mp rest
        simp only [hothers] at hmem
        refine ⟨List.nodup_cons.mpr ⟨fun h => ((hmem b).mp h).1 rfl, hnodup⟩, fun x => ?_, rfl⟩
        rw [List.mem_cons, hmem]
        by_cases hx : x = b
        · simp [hx, entry, new]
        · simp [hx]
    · rintro ⟨hnodup, hmem, rfl⟩
      obtain ⟨hb, hnodup⟩ := List.nodup_cons.mp hnodup
      obtain ⟨entry, new⟩ := (hmem b).mp List.mem_cons_self
      refine .visit entry new (ih.mpr ⟨hnodup, fun x => ?_, rfl⟩)
      rw [hothers, ← hmem, List.mem_cons]
      by_cases hx : x = b
      · simp [hx, hb]
      · simp [hx]

theorem sweep_nil_iff :
    Sweep used r [] c order c' ↔ order.Perm c.ages.keys ∧ c' = order.foldl (ageBlock used r) c := by
  rw [sweep_iff, ← and_assoc]
  refine and_congr_left fun _ => ?_
  simp only [List.not_mem_nil, not_false_eq_true, and_true]
  constructor
  · rintro ⟨hnodup, hmem⟩
    exact (List.perm_ext_iff_of_nodup hnodup Std.ExtTreeMap.nodup_keys).mpr fun x => by simp [hmem]
  · intro hperm
    exact ⟨hperm.nodup_iff.mpr Std.ExtTreeMap.nodup_keys, fun x => by simp [hperm.mem_iff]⟩

/-- The order of a pass does not matter for the cache that it leaves. -/
theorem Sweep.access_eq (h : Sweep used r [] c order c') : c'.setAge used { lo := 0, hi := 0 } = c.access used r := by
  obtain ⟨hperm, rfl⟩ := sweep_nil_iff.mp h
  rw [access, hperm.foldl_eq' fun a _ b _ d => ageBlock_comm used r d a b]

theorem age_access_eq_passed (c : AgeCache) (used : UInt64) (r : AgeRange) (x : UInt64) :
    (c.access used r).age x =
      if x = used then { lo := 0, hi := 0 }
      else if x ∈ c.ages ∧ c.geometry.setOf x = c.geometry.setOf used then (c.age x).passed r c.evicted
      else c.age x := by
  rw [age_access]
  split
  · rfl
  rename_i hx
  by_cases hlo : (c.age x).lo = c.evicted
  · rw [if_neg fun h => h.cached hlo, AgeRange.passed, if_pos hlo, ite_self]
  · have hexposed : c.Exposed used x ↔ x ∈ c.ages ∧ c.geometry.setOf x = c.geometry.setOf used :=
      ⟨fun h => ⟨h.tracked, h.sameSet⟩, fun h => ⟨h.1, hx, h.2, hlo⟩⟩
    simp only [hexposed, AgeRange.passed, if_neg hlo]

/-- An access can visit the entries in every order, and no order visits an entry twice or leaves one out. All orders
    leave the same cache: the blocks without an entry have the ages that they had before, the accessed block has age
    zero, another block of its set with an entry has ages that depend on its own and on those of the accessed block, and
    all other blocks have the ages that they had. -/
theorem access_in_any_order (c : AgeCache) (used : UInt64) (r : AgeRange) (order : List UInt64) :
    ((∃ c', Sweep used r [] c order c') ↔ order.Perm c.ages.keys) ∧
    ∀ c', Sweep used r [] c order c' →
      c'.setAge used { lo := 0, hi := 0 } = c.access used r ∧
      (c'.setAge used { lo := 0, hi := 0 }).default = c.default ∧
      ∀ x, (c'.setAge used { lo := 0, hi := 0 }).age x =
        if x = used then { lo := 0, hi := 0 }
        else if x ∈ c.ages ∧ c.geometry.setOf x = c.geometry.setOf used then (c.age x).passed r c.evicted
        else c.age x := by
  constructor
  · constructor
    · rintro ⟨c', h⟩
      exact (sweep_nil_iff.mp h).1
    · exact fun hperm => ⟨_, sweep_nil_iff.mpr ⟨hperm, rfl⟩⟩
  · intro c' h
    have heq := h.access_eq
    refine ⟨heq, ?_, fun x => ?_⟩
    · rw [heq, default_access]
    · rw [heq, age_access_eq_passed]

/-- Two lines that hold block 1 and, less recently used, block 0. -/
def loaded : AgeCache :=
  ((initial { geometry := .pair, initiallyEmpty := true }).access 0 { lo := 2, hi := 2 }).access 1 { lo := 2, hi := 2 }

/-- An access to block 2 that visits block 1 before block 0. The entry of block 0 is dropped, since block 0 is evicted,
    and the one of block 1 is overwritten. -/
theorem loaded_access_backwards :
    ∃ c', Sweep 2 { lo := 2, hi := 2 } [] loaded [1, 0] c' ∧
      c'.setAge 2 { lo := 0, hi := 0 } = loaded.access 2 { lo := 2, hi := 2 } ∧
      loaded.age 0 = { lo := 1, hi := 1 } ∧ 0 ∉ (loaded.access 2 { lo := 2, hi := 2 }).ages ∧
      (c'.setAge 2 { lo := 0, hi := 0 }).age 0 = { lo := 2, hi := 2 } ∧
      (c'.setAge 2 { lo := 0, hi := 0 }).age 1 = { lo := 1, hi := 1 } := by
  obtain ⟨hiff, hsame⟩ := access_in_any_order loaded 2 { lo := 2, hi := 2 } [1, 0]
  obtain ⟨c', hsweep⟩ := hiff.mpr (by decide +kernel)
  obtain ⟨haccess, -, hages⟩ := hsame c' hsweep
  refine ⟨c', hsweep, haccess, by decide +kernel, by decide +kernel, (hages 0).trans ?_, (hages 1).trans ?_⟩
  · decide +kernel
  · decide +kernel

end AgeCache

end CacheTiming
