import CacheTiming.Proofs.Cache.Canonical
import CacheTiming.Proofs.Cache.StackDistance
import Mathlib.Data.List.Destutter
import Mathlib.Data.List.DropRight

/-! Sure hits in a cache that is unknown at first.

An access to a block of an unknown cache may hit or miss, and both outcomes are joined. The lower ends of
all ages stay zero then. The upper end of the ages of a block, its lag, goes up with each access to
another block of its set, unless this access repeats the one before: the lag counts runs of accesses to
the same block. The age of the block in a concrete cache counts distinct blocks, so a block that returns
after another one was used is counted twice by the lag and once by the age. -/

namespace CacheTiming

/-! ### Runs -/

/-- The number of runs of one and the same block in a history. -/
def runs (history : List UInt64) : Nat := (history.destutter (· ≠ ·)).length

variable {history : List UInt64} {b x : UInt64}

@[simp] theorem runs_eq_zero : runs history = 0 ↔ history = [] := by
  rw [runs, List.length_eq_zero_iff, List.destutter_eq_nil]

theorem length_destutter'_concat (a : UInt64) (history : List UInt64) (b : UInt64) :
    ((history ++ [b]).destutter' (· ≠ ·) a).length =
      (history.destutter' (· ≠ ·) a).length + if (a :: history).getLast? = some b then 0 else 1 := by
  induction history generalizing a with
  | nil =>
    by_cases h : a = b
    · simp [h, List.destutter']
    · simp [h, List.destutter']
  | cons x history ih =>
    rw [List.cons_append, List.destutter'_cons, List.destutter'_cons, List.getLast?_cons_cons]
    by_cases h : a = x
    · simp [h, ih]
    · simp [h, ih, Nat.add_right_comm]

/-- A use of a block starts a run unless the block was used just before. -/
theorem runs_concat (history : List UInt64) (b : UInt64) :
    runs (history ++ [b]) = runs history + if history.getLast? = some b then 0 else 1 := by
  cases history with
  | nil => rfl
  | cons a history => exact length_destutter'_concat a history b

/-- A history of a single block is one run. -/
theorem runs_eq_card (h : history.toFinset.card ≤ 1) : runs history = history.toFinset.card := by
  induction history using List.reverseRecOn with
  | nil => rfl
  | append_singleton history b ih =>
    have hall : ∀ x ∈ history, x = b := fun x hx => Finset.card_le_one.mp h x (by simp [hx]) b (by simp)
    have hsingle : (history ++ [b]).toFinset = {b} := by
      ext x
      simpa using hall x
    rw [runs_concat, hsingle, Finset.card_singleton]
    cases hlast : history.getLast? with
    | none => simp [List.getLast?_eq_none_iff.mp hlast, runs]
    | some x =>
      have hmem := List.mem_of_getLast? hlast
      have hhistory : history.toFinset = {b} := by
        ext y
        simpa using ⟨hall y, fun hy => hy ▸ hall x hmem ▸ hmem⟩
      rw [hall x hmem, if_pos rfl, Nat.add_zero, ih (by simp [hhistory]), hhistory, Finset.card_singleton]

theorem getLast?_rtakeWhile_ne (history : List UInt64) (h : x ≠ b) :
    (history.rtakeWhile (· ≠ x)).getLast? = some b ↔ history.getLast? = some b := by
  cases history using List.reverseRecOn with
  | nil => simp
  | append_singleton history y =>
    by_cases hy : y = x
    · rw [List.rtakeWhile_concat_neg _ _ _ (by simpa using hy)]
      simp [hy, h]
    · rw [List.rtakeWhile_concat_pos _ _ _ (by simpa using hy)]
      simp

theorem rtakeWhile_ne_eq_nil (hb : b ∈ history) :
    history.rtakeWhile (· ≠ b) = [] ↔ history.getLast? = some b := by
  cases history using List.reverseRecOn with
  | nil => simp at hb
  | append_singleton history y =>
    by_cases hy : y = b
    · rw [List.rtakeWhile_concat_neg _ _ _ (by simpa using hy)]
      simp [hy]
    · rw [List.rtakeWhile_concat_pos _ _ _ (by simpa using hy)]
      simp [hy]

theorem rtakeWhile_append_cons {before since : List UInt64} (hx : x ∉ since) :
    (before ++ x :: since).rtakeWhile (· ≠ x) = since := by
  induction since using List.reverseRecOn with
  | nil => simp
  | append_singleton since y ih =>
    have hy : y ≠ x := fun h => hx (by simp [h])
    have hconcat : before ++ x :: (since ++ [y]) = (before ++ x :: since) ++ [y] := by simp
    rw [hconcat, List.rtakeWhile_concat_pos _ _ _ (by simpa using hy), ih fun h => hx (List.mem_append_left _ h)]

/-! ### Upper ends -/

namespace Geometry

variable {g : Geometry} {addresses : List UInt64} {a : UInt64}

/-- The greatest age that a block is thought to have after accesses to the given addresses: one for each run of another
    block of its set since its last use. -/
def lag (g : Geometry) (addresses : List UInt64) (x : UInt64) : Nat :=
  if x ∈ g.used (g.setOf x) addresses then
    min g.ways.toNat (runs ((g.used (g.setOf x) addresses).rtakeWhile (· ≠ x)))
  else g.ways.toNat

theorem lag_le (g : Geometry) (addresses : List UInt64) (x : UInt64) : g.lag addresses x ≤ g.ways.toNat := by
  unfold lag
  split
  · exact Nat.min_le_left _ _
  · exact Nat.le_refl _

/-- Just the last block that was used in its set has no lag. -/
theorem lag_eq_zero (hways : 0 < g.ways.toNat) :
    g.lag addresses b = 0 ↔ (g.used (g.setOf b) addresses).getLast? = some b := by
  unfold lag
  split
  · rename_i hb
    rw [← rtakeWhile_ne_eq_nil hb, ← runs_eq_zero]
    omega
  · rename_i hb
    exact ⟨fun h => absurd h (Nat.ne_of_gt hways), fun h => absurd (List.mem_of_getLast? h) hb⟩

/-- An access raises the lag of the other blocks of the set, unless it repeats the one before. -/
theorem lag_concat (hways : 0 < g.ways.toNat) (addresses : List UInt64) (a x : UInt64) :
    g.lag (addresses ++ [a]) x =
      if x = g.block a then 0
      else if g.setOf x = g.setOf (g.block a) ∧ g.lag addresses (g.block a) ≠ 0 ∧ g.lag addresses x < g.ways.toNat then
        g.lag addresses x + 1
      else g.lag addresses x := by
  by_cases hset : g.setOf x = g.setOf (g.block a)
  · have hused : g.used (g.setOf x) (addresses ++ [a]) = g.used (g.setOf x) addresses ++ [g.block a] := by
      rw [used_append, used_singleton, if_pos hset]
    by_cases hx : x = g.block a
    · rw [if_pos hx, lag, hused, hx, if_pos (by simp), List.rtakeWhile_concat_neg _ _ _ (by simp), runs_eq_zero.mpr rfl,
        Nat.min_zero]
    have hmem : x ∈ g.used (g.setOf x) (addresses ++ [a]) ↔ x ∈ g.used (g.setOf x) addresses := by
      rw [hused, List.mem_append, List.mem_singleton]
      simp [hx]
    have hzero : g.lag addresses (g.block a) = 0 ↔ (g.used (g.setOf x) addresses).getLast? = some (g.block a) := by
      rw [lag_eq_zero hways, hset]
    rw [if_neg hx]
    by_cases hold : x ∈ g.used (g.setOf x) addresses
    · have hlag : g.lag addresses x = min g.ways.toNat (runs ((g.used (g.setOf x) addresses).rtakeWhile (· ≠ x))) :=
        if_pos hold
      rw [lag, if_pos (hmem.mpr hold), hused, List.rtakeWhile_concat_pos _ _ _ (by simpa using Ne.symm hx), runs_concat]
      simp only [getLast?_rtakeWhile_ne _ hx, ← hzero, and_iff_right hset]
      split <;> split <;> omega
    · have hlag : g.lag addresses x = g.ways.toNat := if_neg hold
      rw [lag, if_neg (mt hmem.mp hold), hlag, if_neg fun h => Nat.lt_irrefl _ h.2.2]
  · have hx : x ≠ g.block a := fun h => hset (h ▸ rfl)
    rw [if_neg hx, if_neg fun h => hset h.1, lag, lag, used_append, used_singleton, if_neg hset, List.append_nil]

/-- The lag of a block that was used counts the runs since. -/
theorem SinceUse.lag_eq {since : List UInt64} (h : g.SinceUse addresses x since) :
    g.lag addresses x = min g.ways.toNat (runs (g.used (g.setOf x) since)) := by
  obtain ⟨hnot, earlier, hused⟩ := h.exists_used_eq
  rw [lag, hused, if_pos (by simp), rtakeWhile_append_cons hnot]

/-- The other blocks that were used since are among the blocks of the set. -/
theorem SinceUse.card_used_lt {since : List UInt64} (h : g.SinceUse addresses x since) :
    (g.used (g.setOf x) since).toFinset.card < (g.used (g.setOf x) addresses).toFinset.card := by
  obtain ⟨hnot, earlier, hused⟩ := h.exists_used_eq
  refine Finset.card_lt_card (Finset.ssubset_iff.mpr ⟨x, by simpa using hnot, fun y hy => ?_⟩)
  rw [hused]
  simp only [Finset.mem_insert, List.mem_toFinset] at hy
  simp only [List.mem_toFinset, List.mem_append, List.mem_cons]
  exact .inr hy

theorem lag_lt_iff : g.lag addresses x < g.ways.toNat ↔
    ∃ since, g.SinceUse addresses x since ∧ runs (g.used (g.setOf x) since) < g.ways.toNat := by
  constructor
  · intro h
    have hmem : x ∈ g.used (g.setOf x) addresses := by
      by_contra hmem
      rw [lag, if_neg hmem] at h
      exact Nat.lt_irrefl _ h
    obtain ⟨since, hsince⟩ := exists_sinceUse (mem_used.mp hmem).1
    rw [hsince.lag_eq] at h
    exact ⟨since, hsince, by omega⟩
  · rintro ⟨since, hsince, hruns⟩
    rw [hsince.lag_eq]
    omega

end Geometry

/-! ### The abstract cache -/

namespace AgeCache

open CacheTiming.Geometry

variable {g : Geometry} {addresses : List UInt64} {c d : AgeCache} {status : Status}

/-- Every block may have just been used, and may be as old as its lag. -/
structure Lags (g : Geometry) (addresses : List UInt64) (c : AgeCache) : Prop where
  canonical : c.Canonical g
  ages : ∀ x, (c.age x).bounds = (0, (g.lag addresses x : Int))

theorem lags_initial (hg : g.Supported) : (initial { geometry := g, initiallyEmpty := false }).Lags g [] where
  canonical := canonical_initial { geometry := g, initiallyEmpty := false }
  ages x := by
    have hlag : g.lag [] x = g.ways.toNat := if_neg (by simp [used])
    rw [age_of_not_mem Std.ExtTreeMap.not_mem_empty, hlag, ← hg.toNat_ways]
    rfl

/-- A sure hit makes the blocks of the set older, unless the block that it finds is the youngest. -/
theorem grown_of_lt {ways lag : Nat} (h : lag < ways) (n : Nat) :
    AgeRange.grown ways (0, n) (refinedBounds ways (0, lag) true) =
      (0, ((if lag ≠ 0 ∧ n < ways then n + 1 else n : Nat) : Int)) := by
  have hne : (lag : Int) ≠ ways := by omega
  have hyoung : ¬ (n : Int) < 0 := by omega
  simp only [AgeRange.grown, refinedBounds, if_neg hne, if_neg hyoung, Int.natCast_pos, Nat.pos_iff_ne_zero,
    Int.ofNat_lt]
  split
  · rfl
  · rfl

/-- If a block may be cached or not, then one outcome or the other makes the blocks of the set older. -/
theorem grown_join_grown {ways : Nat} (hways : 0 < ways) (n : Nat) :
    (min (AgeRange.grown ways (0, n) (refinedBounds ways (0, ways) true)).1
        (AgeRange.grown ways (0, n) (refinedBounds ways (0, ways) false)).1,
      max (AgeRange.grown ways (0, n) (refinedBounds ways (0, ways) true)).2
        (AgeRange.grown ways (0, n) (refinedBounds ways (0, ways) false)).2) =
      ((0 : Int), ((if ways ≠ 0 ∧ n < ways then n + 1 else n : Nat) : Int)) := by
  have hyoung : ¬ (n : Int) < 0 := by omega
  simp only [AgeRange.grown, refinedBounds, if_true, if_neg hyoung, Int.ofNat_lt]
  by_cases hn : n < ways
  · simp only [hn, and_true, if_true, if_pos hways.ne']
    split
    · simp
    · simp [Int.le_of_lt (Int.lt_succ (n : Int))]
  · simp [hn]

section Supported
variable (hg : g.Supported) (h : c.Lags g addresses)
include hg h

/-- What one outcome of an access makes of the ages. -/
theorem Lags.after_touch (a : UInt64) (hit : Bool) (hd : (c.touch (g.block a)).after hit = some d) :
    d.Canonical g ∧ ∀ x, (d.age x).bounds =
      if x = g.block a then (0, 0)
      else if g.setOf x = g.setOf (g.block a) then
        AgeRange.grown g.ways.toNat (0, g.lag addresses x)
          (refinedBounds g.ways.toNat (0, g.lag addresses (g.block a)) hit)
      else (0, g.lag addresses x) := by
  obtain ⟨hd, hages⟩ := h.canonical.after_touch hg hd
  refine ⟨hd, fun x => ?_⟩
  rw [hages, exactAge]
  simp only [h.ages, h.canonical.geometry]

theorem Lags.touch_eq (a : UInt64) : CacheModel.touch c a = .ok (c.touch (g.block a)) := by
  rw [h.canonical.toValid.touch_eq hg, h.canonical.geometry]

theorem Lags.isSome_hit (b : UInt64) : (c.touch b).hit.isSome = true := by
  have hlo : ((c.age b).lo.toNat : Int) = 0 := congrArg Prod.fst (h.ages b)
  have hevicted := h.canonical.toNat_evicted hg
  have hways := hg.ways_pos
  exact Option.isSome_of_eq_some (if_pos (UInt8.lt_iff_toNat_lt.mpr (by omega)))

/-- An access is a sure hit if the lag of its block is below the number of ways. -/
theorem Lags.miss_eq_none (b : UInt64) : (c.touch b).miss = none ↔ g.lag addresses b < g.ways.toNat := by
  have hhi : ((c.age b).hi.toNat : Int) = g.lag addresses b := congrArg Prod.snd (h.ages b)
  have hevicted := h.canonical.toNat_evicted hg
  have hle := g.lag_le addresses b
  have hmiss : (c.touch b).miss = none ↔ (c.age b).hi ≠ c.evicted := by simp [touch]
  rw [hmiss, Ne, ← UInt8.toNat_inj]
  omega

/-- An access moves the ages by one step of the lag, whatever outcomes it has. -/
theorem Lags.resolved (a : UInt64) (hd : (c.touch (g.block a)).Resolved status d) :
    d.Lags g (addresses ++ [a]) := by
  have hways := hg.ways_pos
  have hle := g.lag_le addresses (g.block a)
  have hsure := h.miss_eq_none hg (g.block a)
  cases hd with
  | hit hhit hmiss =>
    obtain ⟨hd, hages⟩ := h.after_touch hg a true hhit
    have hlt := hsure.mp hmiss
    refine ⟨hd, fun x => ?_⟩
    rw [hages, lag_concat hways]
    split
    · rfl
    split
    · rename_i hset
      simp only [and_iff_right hset, grown_of_lt hlt]
    · rename_i hset
      rw [if_neg fun h => hset h.1]
  | miss hhit hmiss =>
    -- the lower end of every age is zero, so an access may always hit
    have hsome := h.isSome_hit hg (g.block a)
    rw [hhit] at hsome
    cases hsome
  | both hhit hmiss hjoin =>
    cases hjoin
    obtain ⟨hdhit, hageshit⟩ := h.after_touch hg a true hhit
    obtain ⟨hdmiss, hagesmiss⟩ := h.after_touch hg a false hmiss
    have hlag : g.lag addresses (g.block a) = g.ways.toNat := by
      have hnot := mt hsure.mpr (by simp [hmiss])
      omega
    refine ⟨hdhit.join hdmiss, fun x => ?_⟩
    rw [age_join, AgeRange.bounds_join, hageshit, hagesmiss, lag_concat hways, hlag]
    split
    · rfl
    split
    · rename_i hset
      simp only [and_iff_right hset, grown_join_grown hways]
    · rename_i hset
      rw [if_neg fun h => hset h.1, min_self, max_self]

/-- A sequence of accesses, each joined over its outcomes, meets no error. -/
theorem Lags.foldlM_touch (rest : List UInt64) (m : Losses) :
    ∃ d, rest.foldlM CacheOnly.touch c m = .ok d m ∧ d.Lags g (addresses ++ rest) := by
  induction rest generalizing c addresses with
  | nil => exact ⟨c, rfl, by simpa using h⟩
  | cons a rest ih =>
    obtain ⟨status, d, hd⟩ := exists_resolved (.inl (h.isSome_hit hg (g.block a)))
    obtain ⟨e, hrest, he⟩ := ih (h.resolved hg a hd)
    refine ⟨e, ?_, by simpa using he⟩
    rw [List.foldlM_cons]
    exact bind_eq_ok.mpr ⟨d, m, CacheOnly.touch_of_resolved (h.touch_eq hg a) hd m, hrest⟩

end Supported

end AgeCache

/-! ### The concrete cache -/

namespace RecencyCache

open CacheTiming.Geometry

variable {g : Geometry} {start : UInt64 → List UInt64} {addresses : List UInt64} {c : RecencyCache}

/-- Blocks that are used from the last to the first come to lie in their order. -/
theorem stack_reverse {blocks : List UInt64} (h : blocks.Nodup) : stack blocks.reverse = blocks := by
  induction blocks with
  | nil => rfl
  | cons b blocks ih =>
    obtain ⟨hb, h⟩ := List.nodup_cons.mp h
    rw [List.reverse_cons, stack_concat, ih h, List.erase_of_not_mem hb]

/-- Each set holds the top of a stack, on which the used blocks came after those of a history from before. -/
structure Continues (g : Geometry) (start : UInt64 → List UInt64) (addresses : List UInt64) (c : RecencyCache) :
    Prop where
  geometry : c.geometry = g
  blocks : ∀ set, c.blocks set = (stack (start set ++ g.used set addresses)).take g.ways.toNat

/-- Every well-formed cache is what some history has left. -/
theorem WellFormed.continues (h : c.WellFormed) : c.Continues c.geometry (fun set => (c.blocks set).reverse) [] where
  geometry := rfl
  blocks set := by
    rw [used, List.map_nil, List.filter_nil, List.append_nil, stack_reverse (h.distinct set),
      List.take_of_length_le (h.fits set)]

theorem Continues.use (h : c.Continues g start addresses) (address : UInt64) :
    (c.use (g.block address)).Continues g start (addresses ++ [address]) where
  geometry := h.geometry
  blocks set := by
    rw [blocks_use, h.geometry, h.blocks, used_append, used_singleton]
    split
    · rw [refresh_take, ← List.append_assoc, stack_concat]
    · rw [List.append_nil]

theorem Continues.access_eq (hg : g.divides = true) (h : c.Continues g start addresses) (a : UInt64) :
    c.access a = .ok (c.holds (g.block a), c.use (g.block a)) := by
  rw [RecencyCache.access, h.geometry, if_pos hg]

theorem Continues.accessAll (hg : g.divides = true) (h : c.Continues g start addresses) (rest : List UInt64) :
    ∃ hits c', c.accessAll rest = .ok (hits, c') ∧ c'.Continues g start (addresses ++ rest) := by
  induction rest generalizing c addresses with
  | nil => exact ⟨[], c, rfl, by simpa using h⟩
  | cons a rest ih =>
    obtain ⟨hits, c', hrest, h'⟩ := ih (h.use a)
    refine ⟨c.holds (g.block a) :: hits, c', ?_, by simpa using h'⟩
    rw [RecencyCache.accessAll, h.access_eq hg]
    simp only [hrest]
    rfl

/-- A block that was used stays as long as fewer other blocks than there are ways are used. -/
theorem Continues.holds_iff (h : c.Continues g start addresses) {x : UInt64} {since : List UInt64}
    (hsince : g.SinceUse addresses x since) :
    c.holds x = true ↔ (g.used (g.setOf x) since).toFinset.card < g.ways.toNat := by
  obtain ⟨hnot, earlier, hused⟩ := hsince.exists_used_eq
  rw [holds, h.geometry, h.blocks, List.contains_iff_mem, hused, ← List.append_assoc]
  exact mem_take_stack_iff hnot _

end RecencyCache

namespace AgeCache

open CacheTiming.Geometry

variable {g : Geometry}

/-- After any sequence of accesses to a cache that is unknown at first, an access may hit. It cannot miss if and only
    if its block was used before, and the other blocks of its set were used in fewer runs than there are ways since
    then; so it cannot if the set has seen at most two blocks, and they fit. In a concrete cache, whatever it held at
    first, the access hits if and only if fewer distinct blocks than there are ways were used since then. -/
theorem sure_hit_iff_runs_lt_ways (hg : g.Supported) (addresses : List UInt64) (address : UInt64) (m : Losses) :
    (∃ c o, addresses.foldlM CacheOnly.touch (initial { geometry := g, initiallyEmpty := false }) m = .ok c m ∧
      CacheModel.touch c address = .ok o ∧ o.hit.isSome ∧
      (o.miss = none ↔ ∃ since, g.SinceUse addresses (g.block address) since ∧
        runs (g.used (g.setOf (g.block address)) since) < g.ways.toNat) ∧
      ((∃ a ∈ addresses, g.block a = g.block address) →
        (g.used (g.setOf (g.block address)) addresses).toFinset.card ≤ min 2 g.ways.toNat → o.miss = none)) ∧
    ∀ k : RecencyCache, k.WellFormed → k.geometry = g → ∃ hits k' hit k'',
      k.accessAll addresses = .ok (hits, k') ∧ k'.access address = .ok (hit, k'') ∧
      ∀ since, g.SinceUse addresses (g.block address) since →
        (hit = true ↔ (g.used (g.setOf (g.block address)) since).toFinset.card < g.ways.toNat) := by
  constructor
  · obtain ⟨c, hrun, hc⟩ := (lags_initial hg).foldlM_touch hg addresses m
    have hmiss := hc.miss_eq_none hg (g.block address)
    rw [List.nil_append, lag_lt_iff] at hmiss
    refine ⟨c, _, hrun, hc.touch_eq hg address, hc.isSome_hit hg _, hmiss, fun hused hcard => hmiss.mpr ?_⟩
    obtain ⟨since, hsince⟩ := exists_sinceUse hused
    have hlt := hsince.card_used_lt
    exact ⟨since, hsince, by rw [runs_eq_card (by omega)]; omega⟩
  · rintro k hk rfl
    obtain ⟨hits, k', hrun, hk'⟩ := hk.continues.accessAll hg.divides addresses
    exact ⟨hits, k', _, _, hrun, hk'.access_eq hg.divides address, fun since hsince => hk'.holds_iff hsince⟩

end AgeCache

/-- One set of three lines. -/
def Geometry.triple : Geometry := { lineSize := 64, sets := 1, ways := 3 }

theorem Geometry.supported_triple : Geometry.triple.Supported := ⟨by decide, by decide, by decide, by decide⟩

namespace AgeCache

/-- Block 0 is a sure hit after two accesses to block 1 and one to block 2, and hits in a cache that was empty. -/
theorem sure_hit_after_two_runs :
    (∃ c o, [0, 64, 64, 128].foldlM CacheOnly.touch (initial { geometry := .triple, initiallyEmpty := false }) {} =
      .ok c {} ∧ CacheModel.touch c 0 = .ok o ∧ o.hit.isSome ∧ o.miss = none) ∧
    ∃ hits k' k'', (RecencyCache.empty .triple).accessAll [0, 64, 64, 128] = .ok (hits, k') ∧
      k'.access 0 = .ok (true, k'') := by
  obtain ⟨⟨c, o, hrun, htouch, hhit, hmiss, -⟩, hconcrete⟩ :=
    sure_hit_iff_runs_lt_ways Geometry.supported_triple [0, 64, 64, 128] 0 {}
  have hsince : Geometry.triple.SinceUse [0, 64, 64, 128] 0 [64, 64, 128] := by
    refine ⟨[], 0, rfl, rfl, fun a ha => ?_⟩
    have ha : a = 64 ∨ a = 128 := by simpa using ha
    rcases ha with rfl | rfl
    · decide
    · decide
  obtain ⟨hits, k', hit, k'', hall, haccess, hiff⟩ :=
    hconcrete (.empty .triple) (RecencyCache.wellFormed_empty .triple) rfl
  obtain rfl : hit = true := (hiff _ hsince).mpr (by decide)
  exact ⟨⟨c, o, hrun, htouch, hhit, hmiss.mpr ⟨_, hsince, by decide⟩⟩, hits, k', k'', hall, haccess⟩

/-- Blocks that fit into a set need not stay sure hits. Blocks 0, 1 and 2 fit into three ways, but the second access to
    block 1 is a run of its own, so block 0 may then be evicted for all that is known. -/
theorem fitting_block_may_miss :
    ¬ ∀ g : Geometry, g.Supported → ∀ (addresses : List UInt64) (address set : UInt64),
      (∀ a ∈ address :: addresses, g.setOf (g.block a) = set) →
      ((address :: addresses).map g.block).toFinset.card ≤ g.ways.toNat →
      (∃ a ∈ addresses, g.block a = g.block address) →
      ∀ m c o, addresses.foldlM CacheOnly.touch (initial { geometry := g, initiallyEmpty := false }) m = .ok c m →
        CacheModel.touch c address = .ok o → o.miss = none := by
  intro hstay
  have hg := Geometry.supported_triple
  obtain ⟨c, hrun, hc⟩ := (lags_initial hg).foldlM_touch hg [0, 64, 128, 64] {}
  have hset : ∀ a ∈ [0, 0, 64, 128, 64], Geometry.triple.setOf (Geometry.triple.block a) = 0 := fun a _ => UInt64.mod_one
  have hmiss := hstay .triple hg [0, 64, 128, 64] 0 0 hset (by decide) ⟨0, by simp, rfl⟩ {} c _ hrun (hc.touch_eq hg 0)
  rw [hc.miss_eq_none hg] at hmiss
  exact absurd hmiss (by decide)

end AgeCache

end CacheTiming
