import CacheTiming.Cache.Geometry
import CacheTiming.Cache.Model
import CacheTiming.Text.Numeral
import Std.Data.ExtTreeMap

/-! The abstract cache with least-recently-used replacement.

The age of a block is its position in its set, counted from the most recently used; a block that is
not cached has the number of ways as its age. The abstract cache bounds the age of every block by an
interval. Ages are bytes, so of the number of ways the low eight bits count. -/

namespace CacheTiming

/-- The ages from `lo` to `hi`. -/
structure AgeRange where
  lo : UInt8
  hi : UInt8
deriving DecidableEq, Repr

namespace AgeRange

/-- The least range that includes two others. -/
def join (r s : AgeRange) : AgeRange where
  lo := if s.lo < r.lo then s.lo else r.lo
  hi := if r.hi < s.hi then s.hi else r.hi

/-- Whether a range is included in another. -/
def within (r s : AgeRange) : Bool := s.lo ≤ r.lo && r.hi ≤ s.hi

/-- No more than the age of a block that is not cached. -/
def capped (r : AgeRange) (evicted : UInt8) : AgeRange where
  lo := if evicted < r.lo then evicted else r.lo
  hi := if evicted < r.hi then evicted else r.hi

/-- The ages of a block after an access to another block of its set, whose age was in `used`: the block
    grows older if it was younger than that one. -/
def aged (r used : AgeRange) (evicted : UInt8) : AgeRange :=
  if r.hi < used.lo then capped { lo := r.lo + 1, hi := r.hi + 1 } evicted
  else if r.lo < used.hi ∧ r.hi < evicted then capped { r with hi := r.hi + 1 } evicted
  else capped r evicted

end AgeRange

/-- What is known about the cache before a program starts. -/
structure CacheParams where
  geometry : Geometry
  /-- The cache is empty at first; otherwise its content is unknown. -/
  initiallyEmpty : Bool
deriving DecidableEq, Repr

/-- An abstract cache. Blocks without an entry have the ages in `default`, and no entry repeats
    these. -/
structure AgeCache where
  geometry : Geometry
  default : AgeRange
  ages : Std.ExtTreeMap UInt64 AgeRange

namespace AgeCache

/-- The abstract cache before a program starts. -/
def initial (params : CacheParams) : AgeCache :=
  let evicted := params.geometry.ways.toUInt8
  { geometry := params.geometry
    default := { lo := if params.initiallyEmpty then evicted else 0, hi := evicted }
    ages := ∅ }

/-- The age of a block that is not cached. -/
def evicted (c : AgeCache) : UInt8 := c.geometry.ways.toUInt8

/-- The ages that a block can have. -/
def age (c : AgeCache) (block : UInt64) : AgeRange := c.ages[block]?.getD c.default

/-- Gives a block an age. -/
def setAge (c : AgeCache) (block : UInt64) (r : AgeRange) : AgeCache :=
  { c with ages := if r = c.default then c.ages.erase block else c.ages.insert block r }

/-- Ages one block for an access to another block, `used`, whose age was in `r`. -/
def ageBlock (used : UInt64) (r : AgeRange) (c : AgeCache) (block : UInt64) : AgeCache :=
  match c.ages[block]? with
  | none => c
  | some s =>
    if block = used ∨ c.geometry.setOf block ≠ c.geometry.setOf used ∨ s.lo = c.evicted then c
    else c.setAge block (s.aged r c.evicted)

/-- The cache after an access to a block whose age was in `r`. -/
def access (c : AgeCache) (block : UInt64) (r : AgeRange) : AgeCache :=
  (c.ages.keys.foldl (ageBlock block r) c).setAge block { lo := 0, hi := 0 }

/-- The caches after an access to a block that hits and that misses. -/
def touch (c : AgeCache) (block : UInt64) : Outcomes AgeCache :=
  let r := c.age block
  let cached : AgeRange := if r.hi = c.evicted then { r with hi := c.evicted - 1 } else r
  { hit := if r.lo < c.evicted then some (c.access block cached) else none
    miss := if r.hi = c.evicted then some (c.access block { lo := c.evicted, hi := c.evicted }) else none }

/-- The least cache that covers two others. -/
def join (c d : AgeCache) : AgeCache :=
  (c.ages.keys ++ d.ages.keys).foldl (fun e block => e.setAge block ((c.age block).join (d.age block)))
    { geometry := c.geometry, default := c.default.join d.default, ages := ∅ }

/-- Whether the second cache covers the first. -/
def subseteq (c d : AgeCache) : Bool :=
  c.default.within d.default &&
    (c.ages.keys ++ d.ages.keys).all fun block => (c.age block).within (d.age block)

/-- The number of blocks with an entry that are surely cached. -/
def must (c : AgeCache) : Nat := c.ages.values.countP fun r => r.hi < c.evicted

/-- The number of blocks with an entry that are possibly cached. -/
def may (c : AgeCache) : Nat := c.ages.values.countP fun r => r.lo < c.evicted

/-- Describes the ages of a block. -/
def renderBlock (c : AgeCache) (block : UInt64) (r : AgeRange) : String :=
  "  block 0x" ++ Text.hex 0 block.toNat ++ " (set " ++ (c.geometry.setOf block).toNat.repr ++ "): age " ++
    r.lo.toNat.repr ++ ".." ++ r.hi.toNat.repr ++ "\n"

/-- Describes a cache: how many blocks are cached, and the ages of all blocks with an entry. -/
def render (c : AgeCache) : String :=
  "Cache: " ++ c.must.repr ++ " blocks surely cached, " ++ c.may.repr ++ " possibly cached" ++
    (if c.default.lo < c.evicted then ", untouched blocks unknown\n" else "\n") ++
    String.join (c.ages.toList.map fun (block, r) => c.renderBlock block r)

/-- Describes how the numbers of cached blocks have changed. -/
def renderChange (earlier later : AgeCache) : String :=
  "Cache: surely cached " ++ earlier.must.repr ++ " -> " ++ later.must.repr ++ ", possibly cached " ++
    earlier.may.repr ++ " -> " ++ later.may.repr ++ "\n"

/-- Accesses an address. A line size of zero is a fault, and so is an access without sets. -/
def touchAddress (c : AgeCache) (address : UInt64) : Except Fault (Outcomes AgeCache) :=
  if c.geometry.lineSize = 0 then
    .error .zeroDivisor
  else
    let outcomes := c.touch (c.geometry.block address)
    if c.geometry.sets = 0 ∧ (outcomes.hit.isSome ∨ outcomes.miss.isSome) then .error .zeroDivisor
    else .ok outcomes

/-- Describes a cache; the set of a block is a fault if there are no sets. -/
def renderChecked (c : AgeCache) : Except Fault String :=
  if c.geometry.sets = 0 ∧ !c.ages.isEmpty then .error .zeroDivisor else .ok c.render

instance : CacheModel AgeCache where
  touch := touchAddress
  elapse c _ := c
  join c d := .ok (c.join d)
  widen c d := .ok (c.join d)
  subseteq c d := .ok (c.subseteq d)
  render := renderChecked
  renderChange earlier later := .ok (renderChange earlier later)

end AgeCache

end CacheTiming
