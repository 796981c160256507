import CacheTiming.Proofs.Cache.Recency
import Mathlib.Data.Finset.Card
import Mathlib.Data.List.Induction

/-! The stack law of the concrete cache.

A set that never evicts would hold all blocks that were ever used, the most recently used first: the
stack of its history. A set of a real cache holds the top of this stack, as much of it as there are
ways. The depth of a block in the stack is the number of other blocks that were used since its last
use, so an access hits if and only if this number is below the number of ways. -/

namespace CacheTiming

namespace RecencyCache

/-! ### The stack of a history -/

/-- The blocks of a history, each once, the most recently used first. -/
def stack (history : List UInt64) : List UInt64 := history.foldl (fun blocks b => b :: blocks.erase b) []

@[simp] theorem stack_nil : stack [] = [] := rfl

theorem stack_concat (history : List UInt64) (b : UInt64) : stack (history ++ [b]) = b :: (stack history).erase b := by
  simp [stack]

theorem nodup_stack (history : List UInt64) : (stack history).Nodup := by
  induction history using List.reverseRecOn with
  | nil => exact List.nodup_nil
  | append_singleton history b ih =>
    rw [stack_concat]
    exact List.nodup_cons.mpr ⟨ih.not_mem_erase, ih.erase b⟩

@[simp] theorem mem_stack {history : List UInt64} {x : UInt64} : x ∈ stack history ↔ x ∈ history := by
  induction history using List.reverseRecOn with
  | nil => rfl
  | append_singleton history b ih =>
    rw [stack_concat, List.mem_append, List.mem_singleton, List.mem_cons]
    by_cases hx : x = b
    · simp [hx]
    · rw [List.mem_erase_of_ne hx, ih]
      simp [hx]

theorem length_stack (history : List UInt64) : (stack history).length = history.toFinset.card := by
  rw [← List.toFinset_card_of_nodup (nodup_stack history)]
  congr 1
  ext x
  simp

/-- What was used since some moment lies on top of what had been used before. -/
theorem stack_append (before since : List UInt64) :
    stack (before ++ since) = stack since ++ (stack before).filter (· ∉ since) := by
  induction since using List.reverseRecOn with
  | nil => simp
  | append_singleton since b ih =>
    rw [← List.append_assoc, stack_concat, stack_concat, ih, List.cons_append]
    congr 1
    -- the block is taken out of the upper or of the lower part
    by_cases hb : b ∈ since
    · rw [List.erase_append_left _ (mem_stack.mpr hb)]
      congr 1
      refine List.filter_congr fun x _ => ?_
      by_cases hx : x = b
      · simp [hx, hb]
      · simp [hx]
    · have hstack : b ∉ stack since := fun h => hb (mem_stack.mp h)
      rw [List.erase_append_right _ hstack, List.erase_of_not_mem hstack,
        ((nodup_stack before).filter _).erase_eq_filter, List.filter_filter]
      congr 1
      refine List.filter_congr fun x _ => ?_
      by_cases hx : x = b
      · simp [hx]
      · simp [hx]

/-- A block lies in the stack below what was used since its last use. -/
theorem mem_take_stack_iff {before since : List UInt64} {b : UInt64} (hb : b ∉ since) (ways : Nat) :
    b ∈ (stack (before ++ b :: since)).take ways ↔ since.toFinset.card < ways := by
  have hsplit : stack (before ++ b :: since) =
      stack since ++ b :: ((stack before).erase b).filter (· ∉ since) := by
    rw [List.append_cons, stack_append, stack_concat, List.filter_cons_of_pos (by simpa using hb)]
  have hstack : b ∉ stack since := fun h => hb (mem_stack.mp h)
  rw [List.mem_take_iff_idxOf_lt (by simp), hsplit, List.idxOf_append_of_notMem hstack, List.idxOf_cons_self,
    Nat.add_zero, length_stack]

theorem take_erase (b : UInt64) :
    ∀ (blocks : List UInt64) (n : Nat),
      (blocks.erase b).take n = if b ∈ blocks.take (n + 1) then (blocks.take (n + 1)).erase b else blocks.take n
  | [], n => by simp
  | x :: blocks, n => by
    by_cases hx : x = b
    · simp [hx]
    · have hne : b ≠ x := Ne.symm hx
      cases n with
      | zero => simp [hne]
      | succ n =>
        rw [List.erase_cons_tail (by simpa using hx), List.take_succ_cons, take_erase b blocks n]
        simp only [List.take_succ_cons, List.mem_cons, hne, false_or]
        split
        · rw [List.erase_cons_tail (by simpa using hx)]
        · rfl

/-- An access to a set that holds the top of a stack brings its block to the top of both. -/
theorem refresh_take (ways : Nat) (blocks : List UInt64) (b : UInt64) :
    refresh ways (blocks.take ways) b = (b :: blocks.erase b).take ways := by
  cases ways with
  | zero => simp [refresh]
  | succ n =>
    simp only [refresh, List.contains_iff_mem, List.take_succ_cons, take_erase, List.take_take]
    split
    · rfl
    · rw [Nat.min_eq_left (Nat.le_succ n)]

end RecencyCache

/-! ### Histories of addresses -/

namespace Geometry

/-- The blocks of a set that were used by accesses to the given addresses, in order. -/
def used (g : Geometry) (set : UInt64) (addresses : List UInt64) : List UInt64 :=
  (addresses.map g.block).filter (g.setOf · = set)

/-- The accesses `since` are those after the last one to a block. -/
def SinceUse (g : Geometry) (addresses : List UInt64) (block : UInt64) (since : List UInt64) : Prop :=
  ∃ earlier last, addresses = earlier ++ last :: since ∧ g.block last = block ∧ ∀ a ∈ since, g.block a ≠ block

/-- The last use of one block comes after the last use of another. -/
def MoreRecent (g : Geometry) (addresses : List UInt64) (x y : UInt64) : Prop :=
  ∃ sinceX sinceY, g.SinceUse addresses x sinceX ∧ g.SinceUse addresses y sinceY ∧ sinceX.length < sinceY.length

variable {g : Geometry} {set x : UInt64} {addresses since : List UInt64}

theorem used_append (g : Geometry) (set : UInt64) (before since : List UInt64) :
    g.used set (before ++ since) = g.used set before ++ g.used set since := by
  simp [used]

theorem mem_used : x ∈ g.used set addresses ↔ (∃ a ∈ addresses, g.block a = x) ∧ g.setOf x = set := by
  simp [used]

theorem used_singleton (g : Geometry) (set a : UInt64) :
    g.used set [a] = if set = g.setOf (g.block a) then [g.block a] else [] := by
  by_cases h : set = g.setOf (g.block a)
  · simp [used, h]
  · simp [used, h, Ne.symm h]

theorem SinceUse.concat (h : g.SinceUse addresses x since) {a : UInt64} (ha : g.block a ≠ x) :
    g.SinceUse (addresses ++ [a]) x (since ++ [a]) := by
  obtain ⟨earlier, last, rfl, hlast, hsince⟩ := h
  refine ⟨earlier, last, by simp, hlast, fun b hb => ?_⟩
  rcases List.mem_append.mp hb with hb | hb
  · exact hsince b hb
  · rwa [List.mem_singleton.mp hb]

theorem sinceUse_self (g : Geometry) (addresses : List UInt64) (a : UInt64) :
    g.SinceUse (addresses ++ [a]) (g.block a) [] :=
  ⟨addresses, a, rfl, rfl, by simp⟩

theorem exists_sinceUse (h : ∃ a ∈ addresses, g.block a = x) : ∃ since, g.SinceUse addresses x since := by
  induction addresses using List.reverseRecOn with
  | nil => simp at h
  | append_singleton addresses b ih =>
    by_cases hb : g.block b = x
    · exact ⟨[], hb ▸ g.sinceUse_self addresses b⟩
    · have hearlier : ∃ a ∈ addresses, g.block a = x := by simpa [or_and_right, exists_or, hb] using h
      obtain ⟨since, hsince⟩ := ih hearlier
      exact ⟨since ++ [b], hsince.concat hb⟩

/-- The last use of a block cuts the history of its set in two. -/
theorem SinceUse.exists_used_eq (h : g.SinceUse addresses x since) :
    x ∉ g.used (g.setOf x) since ∧
      ∃ earlier, g.used (g.setOf x) addresses = earlier ++ x :: g.used (g.setOf x) since := by
  obtain ⟨earlier, last, rfl, rfl, hsince⟩ := h
  refine ⟨fun h => ?_, g.used (g.setOf (g.block last)) earlier, ?_⟩
  · obtain ⟨⟨a, ha, hab⟩, -⟩ := mem_used.mp h
    exact hsince a ha hab
  · rw [List.append_cons, used_append, used_append, used_singleton, if_pos rfl, List.append_assoc,
      List.singleton_append]

theorem MoreRecent.concat {y : UInt64} (h : g.MoreRecent addresses x y) {a : UInt64} (hx : g.block a ≠ x)
    (hy : g.block a ≠ y) : g.MoreRecent (addresses ++ [a]) x y := by
  obtain ⟨sinceX, sinceY, hsx, hsy, hlt⟩ := h
  exact ⟨_, _, hsx.concat hx, hsy.concat hy, by simpa using hlt⟩

theorem moreRecent_self {a : UInt64} (h : ∃ b ∈ addresses, g.block b = x) (ha : g.block a ≠ x) :
    g.MoreRecent (addresses ++ [a]) (g.block a) x := by
  obtain ⟨since, hsince⟩ := exists_sinceUse h
  exact ⟨[], _, g.sinceUse_self addresses a, hsince.concat ha, by simp⟩

end Geometry

namespace RecencyCache

open CacheTiming.Geometry

variable {g : Geometry} {set : UInt64} {addresses : List UInt64} {c : RecencyCache}

theorem stack_used_concat (g : Geometry) (set : UInt64) (addresses : List UInt64) (a : UInt64) :
    stack (g.used set (addresses ++ [a])) =
      if set = g.setOf (g.block a) then g.block a :: (stack (g.used set addresses)).erase (g.block a)
      else stack (g.used set addresses) := by
  rw [used_append, used_singleton]
  split
  · exact stack_concat _ _
  · rw [List.append_nil]

/-- The stack of a set is in the order of the last uses. -/
theorem pairwise_stack_used (g : Geometry) (set : UInt64) (addresses : List UInt64) :
    (stack (g.used set addresses)).Pairwise (g.MoreRecent addresses) := by
  induction addresses using List.reverseRecOn with
  | nil => exact List.Pairwise.nil
  | append_singleton addresses a ih =>
    have hmem : ∀ {x}, x ∈ stack (g.used set addresses) → (∃ b ∈ addresses, g.block b = x) ∧ g.setOf x = set :=
      fun hx => mem_used.mp (mem_stack.mp hx)
    rw [stack_used_concat]
    split
    · have hother : ∀ {x}, x ∈ (stack (g.used set addresses)).erase (g.block a) → g.block a ≠ x :=
        fun hx => Ne.symm ((nodup_stack _).mem_erase_iff.mp hx).1
      refine List.pairwise_cons.mpr ⟨fun x hx => ?_, ?_⟩
      · exact moreRecent_self (hmem (List.mem_of_mem_erase hx)).1 (hother hx)
      · exact (ih.sublist List.erase_sublist).imp_of_mem fun hx hy h => h.concat (hother hx) (hother hy)
    · rename_i hset
      -- a block of another set was used
      have hother : ∀ {x}, x ∈ stack (g.used set addresses) → g.block a ≠ x :=
        fun hx h => hset (h ▸ (hmem hx).2.symm)
      exact ih.imp_of_mem fun hx hy h => h.concat (hother hx) (hother hy)

theorem mem_take_stack_used_iff (g : Geometry) (addresses : List UInt64) (b : UInt64) (ways : Nat) :
    b ∈ (stack (g.used (g.setOf b) addresses)).take ways ↔
      ∃ since, g.SinceUse addresses b since ∧ (g.used (g.setOf b) since).toFinset.card < ways := by
  have hdepth : ∀ {since}, g.SinceUse addresses b since →
      (b ∈ (stack (g.used (g.setOf b) addresses)).take ways ↔ (g.used (g.setOf b) since).toFinset.card < ways) := by
    intro since hsince
    obtain ⟨hnot, earlier, hused⟩ := hsince.exists_used_eq
    rw [hused]
    exact mem_take_stack_iff hnot ways
  constructor
  · intro h
    obtain ⟨since, hsince⟩ := exists_sinceUse (mem_used.mp (mem_stack.mp (List.mem_of_mem_take h))).1
    exact ⟨since, hsince, (hdepth hsince).mp h⟩
  · rintro ⟨since, hsince, hcard⟩
    exact (hdepth hsince).mpr hcard

/-! ### Sequences of accesses -/

/-- Accesses one address after the other: which accesses hit, and the cache after them. -/
def accessAll (c : RecencyCache) : List UInt64 → Except Fault (List Bool × RecencyCache)
  | [] => .ok ([], c)
  | address :: rest =>
    match c.access address with
    | .error e => .error e
    | .ok (hit, c') => (c'.accessAll rest).map fun r => (hit :: r.1, r.2)

/-- Each set that was used holds the top of its stack, the others have no entry. -/
structure Recalls (g : Geometry) (addresses : List UInt64) (c : RecencyCache) : Prop where
  geometry : c.geometry = g
  sets : ∀ set, c.sets[set]? =
    if g.used set addresses = [] then none else some ((stack (g.used set addresses)).take g.ways.toNat)

theorem recalls_empty (g : Geometry) : (empty g).Recalls g [] where
  geometry := rfl
  sets set := by simp [empty, used]

theorem Recalls.blocks_eq (h : c.Recalls g addresses) (set : UInt64) :
    c.blocks set = (stack (g.used set addresses)).take g.ways.toNat := by
  rw [blocks, h.sets]
  split
  · rename_i hnil
    simp [hnil]
  · rfl

theorem Recalls.use (h : c.Recalls g addresses) (address : UInt64) :
    (c.use (g.block address)).Recalls g (addresses ++ [address]) where
  geometry := h.geometry
  sets set := by
    simp only [RecencyCache.use, h.geometry, Std.ExtTreeMap.getElem?_insert, Std.LawfulEqCmp.compare_eq_iff_eq,
      h.blocks_eq, refresh_take, used_append, used_singleton]
    by_cases hset : set = g.setOf (g.block address)
    · simp [hset, stack_concat]
    · simp [hset, Ne.symm hset, h.sets]

theorem Recalls.access (h : c.Recalls g addresses) (hg : g.divides = true) (address : UInt64) :
    ∃ hit c', c.access address = .ok (hit, c') ∧ c'.Recalls g (addresses ++ [address]) ∧
      (hit = true ↔ g.block address ∈ (stack (g.used (g.setOf (g.block address)) addresses)).take g.ways.toNat) := by
  refine ⟨_, _, if_pos (h.geometry ▸ hg), h.geometry ▸ h.use address, ?_⟩
  rw [holds, h.geometry, h.blocks_eq, List.contains_iff_mem]

/-- Each access of a sequence meets the stack of all accesses before it. -/
theorem Recalls.accessAll (hg : g.divides = true) :
    ∀ (rest : List UInt64) {before : List UInt64} {c : RecencyCache}, c.Recalls g before →
      ∃ hits c', c.accessAll rest = .ok (hits, c') ∧ c'.Recalls g (before ++ rest) ∧ hits.length = rest.length ∧
        ∀ mid address after, rest = mid ++ address :: after →
          (hits[mid.length]? = some true ↔ g.block address ∈
            (stack (g.used (g.setOf (g.block address)) (before ++ mid))).take g.ways.toNat)
  | [], before, c, h => ⟨[], c, rfl, by simpa using h, rfl, by simp⟩
  | address :: rest, before, c, h => by
    obtain ⟨hit, c₁, haccess, h₁, hhit⟩ := h.access hg address
    obtain ⟨hits, c₂, hrest, h₂, hlength, hhits⟩ := accessAll hg rest h₁
    refine ⟨hit :: hits, c₂, ?_, by simpa using h₂, by simp [hlength], fun mid a after heq => ?_⟩
    · rw [RecencyCache.accessAll, haccess]
      simp only [hrest]
      rfl
    · cases mid with
      | nil =>
        obtain ⟨rfl, -⟩ := List.cons.inj heq
        simpa using hhit
      | cons b mid =>
        obtain ⟨rfl, hmid⟩ := List.cons.inj heq
        simpa using hhits mid a after hmid

/-- What a set lists after accesses to the given addresses: the most recently used of its blocks, in the
    order of their last uses, and as many of them as there are ways. -/
structure ListsRecent (g : Geometry) (addresses : List UInt64) (set : UInt64) (blocks : List UInt64) : Prop where
  distinct : blocks.Nodup
  ordered : blocks.Pairwise (g.MoreRecent addresses)
  used : ∀ x ∈ blocks, x ∈ g.used set addresses
  length : blocks.length = min g.ways.toNat (g.used set addresses).toFinset.card
  recent : ∀ x ∈ blocks, ∀ y ∈ g.used set addresses, y ∉ blocks → g.MoreRecent addresses x y

theorem listsRecent_take (g : Geometry) (addresses : List UInt64) (set : UInt64) :
    ListsRecent g addresses set ((stack (g.used set addresses)).take g.ways.toNat) where
  distinct := (nodup_stack _).sublist (List.take_sublist _ _)
  ordered := (pairwise_stack_used g set addresses).sublist (List.take_sublist _ _)
  used _ hx := mem_stack.mp (List.mem_of_mem_take hx)
  length := by rw [List.length_take, length_stack]
  recent x hx y hy hnot := by
    -- what is not on top is in the rest of the stack
    have hpairs := pairwise_stack_used g set addresses
    have hmem := mem_stack.mpr hy
    rw [← List.take_append_drop g.ways.toNat (stack (g.used set addresses))] at hpairs hmem
    exact (List.pairwise_append.mp hpairs).2.2 x hx y ((List.mem_append.mp hmem).resolve_left hnot)

/-- In every sequence of accesses from the empty cache, an access hits if and only if its block was used before and
    fewer other blocks of its set than there are ways were used since. After the sequence, every set that was used
    lists its most recently used blocks, and no other set has an entry. -/
theorem hits_by_stack_distance (hline : g.lineSize ≠ 0) (hsets : g.sets ≠ 0) (addresses : List UInt64) :
    ∃ hits c, (empty g).accessAll addresses = .ok (hits, c) ∧ hits.length = addresses.length ∧
      (∀ before address after, addresses = before ++ address :: after →
        (hits[before.length]? = some true ↔
          ∃ since, g.SinceUse before (g.block address) since ∧
            (g.used (g.setOf (g.block address)) since).toFinset.card < g.ways.toNat)) ∧
      (∀ set, g.used set addresses ≠ [] → ∃ blocks, c.sets[set]? = some blocks ∧ ListsRecent g addresses set blocks) ∧
      ∀ set, g.used set addresses = [] → c.sets[set]? = none := by
  have hg : g.divides = true := by simp [divides, hline, hsets]
  obtain ⟨hits, c, hrun, hc, hlength, hhits⟩ := Recalls.accessAll hg addresses (recalls_empty g)
  refine ⟨hits, c, hrun, hlength, fun before address after heq => ?_, fun set hset => ?_, fun set hset => ?_⟩
  · rw [hhits before address after heq, List.nil_append]
    exact mem_take_stack_used_iff g before (g.block address) g.ways.toNat
  · exact ⟨_, (hc.sets set).trans (if_neg hset), listsRecent_take g addresses set⟩
  · exact (hc.sets set).trans (if_pos hset)

end RecencyCache

/-- Two sets of two lines. -/
def Geometry.square : Geometry := { lineSize := 64, sets := 2, ways := 2 }

/-- Accesses to the blocks 0, 2, 4, 0, 1 and 4, all but block 1 of one set. The second one to block 0 misses, since blocks
    2 and 4 were used meanwhile; the last one hits, since of the set of block 4 only block 0 was used meanwhile. -/
theorem RecencyCache.hits_by_distance_square :
    ∃ c, (empty .square).accessAll [0, 128, 256, 0, 64, 256] = .ok ([false, false, false, false, false, true], c) ∧
      (¬ ∃ since, Geometry.square.SinceUse [0, 128, 256] 0 since ∧ (Geometry.square.used 0 since).toFinset.card < 2) ∧
      (∃ since, Geometry.square.SinceUse [0, 128, 256, 0, 64] 4 since ∧
        (Geometry.square.used 0 since).toFinset.card < 2) ∧
      ∃ blocks, c.sets[(0 : UInt64)]? = some blocks ∧ ListsRecent .square [0, 128, 256, 0, 64, 256] 0 blocks ∧
        blocks.length = 2 := by
  obtain ⟨hits, c, hrun, -, hhits, hlists, -⟩ := hits_by_stack_distance (g := .square) (by decide) (by decide)
    [0, 128, 256, 0, 64, 256]
  have heval : ((empty .square).accessAll [0, 128, 256, 0, 64, 256]).toOption.map Prod.fst =
      some [false, false, false, false, false, true] := by decide +kernel
  rw [hrun] at heval
  obtain rfl : hits = [false, false, false, false, false, true] := Option.some.inj heval
  obtain ⟨blocks, hblocks, hrecent⟩ := hlists 0 (by decide)
  refine ⟨c, hrun, fun h => ?_, ?_, blocks, hblocks, hrecent, hrecent.length.trans (by decide)⟩
  · exact absurd ((hhits [0, 128, 256] 0 [64, 256] rfl).mpr h) (by decide)
  · exact (hhits [0, 128, 256, 0, 64] 256 [] rfl).mp rfl

end CacheTiming
