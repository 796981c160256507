import CacheTiming.Cache.Recency
import Mathlib.Data.List.Basic

/-! Ages in the concrete cache.

The age of a block is its place in its set, counted from the most recently used, or the number of ways
if it is not cached. An access makes its block the youngest; another block of the set grows older by
one if it was younger than the accessed one and keeps its age otherwise, whether the access hits,
misses or evicts. -/

namespace CacheTiming.RecencyCache

/-! ### One set -/

/-- The place of a block in a set, or the number of ways if it is not there. -/
def position (ways : Nat) (blocks : List UInt64) (block : UInt64) : Nat :=
  if block ∈ blocks then blocks.idxOf block else ways

theorem position_of_mem {ways : Nat} {blocks : List UInt64} {block : UInt64} (h : block ∈ blocks) :
    position ways blocks block = blocks.idxOf block := if_pos h

theorem position_of_not_mem {ways : Nat} {blocks : List UInt64} {block : UInt64} (h : block ∉ blocks) :
    position ways blocks block = ways := if_neg h

theorem position_le {ways : Nat} {blocks : List UInt64} (hlen : blocks.length ≤ ways) (block : UInt64) :
    position ways blocks block ≤ ways := by
  unfold position
  split
  · exact Nat.le_trans List.idxOf_le_length hlen
  · exact Nat.le_refl ways

theorem position_lt_iff {ways : Nat} {blocks : List UInt64} (hlen : blocks.length ≤ ways) {block : UInt64} :
    position ways blocks block < ways ↔ block ∈ blocks := by
  unfold position
  split
  · rename_i h
    simp only [h, iff_true]
    exact Nat.lt_of_lt_of_le (List.idxOf_lt_length_of_mem h) hlen
  · rename_i h
    simp [h]

/-- Taking a block out of a list moves the blocks behind it one place forward. -/
theorem idxOf_erase {b x : UInt64} (hne : x ≠ b) :
    ∀ {l : List UInt64}, b ∈ l → x ∈ l →
      (l.erase b).idxOf x = if l.idxOf x < l.idxOf b then l.idxOf x else l.idxOf x - 1
  | [], hb, _ => by simp at hb
  | y :: l, hb, hx => by
    by_cases hyb : y = b
    · subst hyb
      simp [List.idxOf_cons_ne _ hne.symm]
    · have hb' : b ∈ l := by simpa [Ne.symm hyb] using hb
      rw [List.erase_cons_tail (by simpa using hyb), List.idxOf_cons_ne _ hyb]
      by_cases hyx : y = x
      · subst hyx
        simp
      · have hx' : x ∈ l := by simpa [Ne.symm hyx] using hx
        rw [List.idxOf_cons_ne _ hyx, List.idxOf_cons_ne _ hyx, idxOf_erase hne hb' hx']
        have : l.idxOf x ≠ l.idxOf b := fun h => hne ((List.idxOf_inj hx').mp h)
        split <;> split <;> omega

theorem length_refresh_le {ways : Nat} {blocks : List UInt64} (hlen : blocks.length ≤ ways) (block : UInt64) :
    (refresh ways blocks block).length ≤ ways := by
  unfold refresh
  split
  · rename_i h
    have h : block ∈ blocks := by simpa using h
    have := List.length_erase_of_mem h
    have := List.length_pos_of_mem h
    simp only [List.length_cons]
    omega
  · simp only [List.length_take]
    omega

theorem mem_of_mem_refresh {ways : Nat} {blocks : List UInt64} {block x : UInt64}
    (h : x ∈ refresh ways blocks block) : x = block ∨ x ∈ blocks := by
  unfold refresh at h
  split at h
  · rcases List.mem_cons.mp h with h | h
    · exact Or.inl h
    · exact Or.inr (List.mem_of_mem_erase h)
  · exact List.mem_cons.mp (List.mem_of_mem_take h)

theorem nodup_refresh {ways : Nat} {blocks : List UInt64} (h : blocks.Nodup) (block : UInt64) :
    (refresh ways blocks block).Nodup := by
  unfold refresh
  split
  · exact List.nodup_cons.mpr ⟨fun hm => (List.Nodup.mem_erase_iff h).mp hm |>.1 rfl, h.erase block⟩
  · rename_i hn
    have hn : block ∉ blocks := by simpa using hn
    exact (List.nodup_cons.mpr ⟨hn, h⟩).sublist (List.take_sublist ways _)

theorem exists_refresh_eq_cons {ways : Nat} (hways : 0 < ways) (blocks : List UInt64) (block : UInt64) :
    ∃ rest, refresh ways blocks block = block :: rest := by
  unfold refresh
  split
  · exact ⟨_, rfl⟩
  · obtain ⟨n, rfl⟩ := Nat.exists_eq_add_of_lt hways
    exact ⟨_, rfl⟩

/-- After a hit the blocks in front of the accessed one have moved back by one place. -/
theorem position_refresh_of_mem {ways : Nat} {blocks : List UInt64} (hlen : blocks.length ≤ ways)
    {block x : UInt64} (hb : block ∈ blocks) (hx : x ≠ block) :
    position ways (refresh ways blocks block) x =
      if position ways blocks x < position ways blocks block then position ways blocks x + 1
      else position ways blocks x := by
  have hr : refresh ways blocks block = block :: blocks.erase block := if_pos (by simpa using hb)
  rw [hr, position_of_mem hb]
  by_cases hm : x ∈ blocks
  · have hm' : x ∈ block :: blocks.erase block :=
      List.mem_cons_of_mem _ ((List.mem_erase_of_ne hx).mpr hm)
    have hidx : blocks.idxOf x ≠ blocks.idxOf block := fun h => hx ((List.idxOf_inj hm).mp h)
    rw [position_of_mem hm', position_of_mem hm, List.idxOf_cons_ne _ (Ne.symm hx), idxOf_erase hx hb hm]
    split <;> omega
  · have hm' : x ∉ block :: blocks.erase block := by
      rw [List.mem_cons, List.mem_erase_of_ne hx]
      simp [hx, hm]
    have := List.idxOf_le_length (l := blocks) (a := block)
    rw [position_of_not_mem hm', position_of_not_mem hm, if_neg (by omega)]

/-- After a miss all blocks of the set have moved back; the last one may have left it. -/
theorem position_refresh_of_not_mem {ways : Nat} {blocks : List UInt64} (hlen : blocks.length ≤ ways)
    {block x : UInt64} (hb : block ∉ blocks) (hx : x ≠ block) :
    position ways (refresh ways blocks block) x =
      if position ways blocks x < position ways blocks block then position ways blocks x + 1
      else position ways blocks x := by
  have hr : refresh ways blocks block = (block :: blocks).take ways := if_neg (by simpa using hb)
  rw [hr, position_of_not_mem hb]
  by_cases hm : x ∈ blocks
  · have hlt := List.idxOf_lt_length_of_mem hm
    have hidx : (block :: blocks).idxOf x = blocks.idxOf x + 1 := List.idxOf_cons_ne _ (Ne.symm hx)
    have hmem := List.mem_take_iff_idxOf_lt (n := ways) (List.mem_cons_of_mem block hm)
    rw [position_of_mem hm, if_pos (by omega)]
    by_cases hstay : blocks.idxOf x + 1 < ways
    · have hm' : x ∈ (block :: blocks).take ways := hmem.mpr (by omega)
      rw [position_of_mem hm', (List.take_prefix ways _).idxOf_eq_of_mem hm', hidx]
    · rw [position_of_not_mem fun h => hstay (by have := hmem.mp h; omega)]
      omega
  · have hm' : x ∉ (block :: blocks).take ways := fun h => by
      rcases List.mem_cons.mp (List.mem_of_mem_take h) with h | h
      · exact hx h
      · exact hm h
    rw [position_of_not_mem hm', position_of_not_mem hm, if_neg (Nat.lt_irrefl ways)]

theorem position_refresh {ways : Nat} {blocks : List UInt64} (hways : 0 < ways) (hlen : blocks.length ≤ ways)
    (block x : UInt64) :
    position ways (refresh ways blocks block) x =
      if x = block then 0
      else if position ways blocks x < position ways blocks block then position ways blocks x + 1
      else position ways blocks x := by
  by_cases hx : x = block
  · subst hx
    obtain ⟨rest, hr⟩ := exists_refresh_eq_cons hways blocks x
    rw [hr, position_of_mem List.mem_cons_self, if_pos rfl, List.idxOf_cons_self]
  · rw [if_neg hx]
    by_cases hb : block ∈ blocks
    · exact position_refresh_of_mem hlen hb hx
    · exact position_refresh_of_not_mem hlen hb hx

/-! ### The whole cache -/

/-- The age of a block: its place in its set, or the number of ways if it is not cached. -/
def age (c : RecencyCache) (block : UInt64) : Nat :=
  position c.geometry.ways.toNat (c.blocks (c.geometry.setOf block)) block

/-- Each set holds at most as many blocks as there are ways, no block twice, and only blocks that map to
    it. -/
structure WellFormed (c : RecencyCache) : Prop where
  fits : ∀ set, (c.blocks set).length ≤ c.geometry.ways.toNat
  distinct : ∀ set, (c.blocks set).Nodup
  mapped : ∀ set, ∀ block ∈ c.blocks set, c.geometry.setOf block = set

theorem blocks_empty (g : Geometry) (set : UInt64) : (empty g).blocks set = [] := by
  simp [blocks, empty]

theorem wellFormed_empty (g : Geometry) : (empty g).WellFormed where
  fits set := by simp [blocks_empty]
  distinct set := by simp [blocks_empty]
  mapped set block h := by simp [blocks_empty] at h

variable {c : RecencyCache}

theorem blocks_use (c : RecencyCache) (block set : UInt64) :
    (c.use block).blocks set =
      if set = c.geometry.setOf block then refresh c.geometry.ways.toNat (c.blocks set) block else c.blocks set := by
  simp only [blocks, use, Std.ExtTreeMap.getElem?_insert, Std.LawfulEqCmp.compare_eq_iff_eq]
  by_cases h : set = c.geometry.setOf block
  · simp [h]
  · simp [h, Ne.symm h]

theorem WellFormed.use (h : c.WellFormed) (block : UInt64) : (c.use block).WellFormed where
  fits set := by
    rw [blocks_use]
    split
    · exact length_refresh_le (h.fits set) block
    · exact h.fits set
  distinct set := by
    rw [blocks_use]
    split
    · exact nodup_refresh (h.distinct set) block
    · exact h.distinct set
  mapped set x hx := by
    rw [blocks_use] at hx
    split at hx
    · rename_i hs
      rcases mem_of_mem_refresh hx with rfl | hx
      · exact hs.symm
      · exact h.mapped set x hx
    · exact h.mapped set x hx

theorem WellFormed.age_le (h : c.WellFormed) (block : UInt64) : c.age block ≤ c.geometry.ways.toNat :=
  position_le (h.fits _) block

theorem holds_iff (h : c.WellFormed) (block : UInt64) :
    c.holds block = true ↔ c.age block < c.geometry.ways.toNat := by
  rw [age, position_lt_iff (h.fits _), holds, List.contains_iff_mem]

/-- An access makes its block the youngest of its set, and only those that were younger than it grow
    older. -/
theorem age_use (h : c.WellFormed) (hways : 0 < c.geometry.ways.toNat) (block x : UInt64) :
    (c.use block).age x =
      if x = block then 0
      else if c.geometry.setOf x = c.geometry.setOf block ∧ c.age x < c.age block then c.age x + 1
      else c.age x := by
  show position c.geometry.ways.toNat ((c.use block).blocks (c.geometry.setOf x)) x = _
  rw [blocks_use]
  by_cases hset : c.geometry.setOf x = c.geometry.setOf block
  · rw [if_pos hset, position_refresh hways (h.fits _)]
    simp only [age, hset, true_and]
  · have hx : x ≠ block := fun h => hset (h ▸ rfl)
    rw [if_neg hset, if_neg hx, if_neg fun h => hset h.1]
    rfl

end CacheTiming.RecencyCache
