import CacheTiming.Cache.Geometry
import CacheTiming.Fault
import Std.Data.ExtTreeMap

/-! The concrete cache with least-recently-used replacement.

Each set lists its blocks from the most to the least recently used. An access moves its block to the
front; when the set holds too many blocks then, the last one is evicted. -/

namespace CacheTiming

/-- A concrete cache; a set without an entry was not accessed yet. -/
structure RecencyCache where
  geometry : Geometry
  sets : Std.ExtTreeMap UInt64 (List UInt64)

namespace RecencyCache

/-- The cache that holds no block. -/
def empty (g : Geometry) : RecencyCache := { geometry := g, sets := ∅ }

/-- The blocks of a set, the most recently used first. -/
def blocks (c : RecencyCache) (set : UInt64) : List UInt64 := c.sets[set]?.getD []

/-- Whether a block is in the cache. -/
def holds (c : RecencyCache) (block : UInt64) : Bool :=
  (c.blocks (c.geometry.setOf block)).contains block

/-- The blocks of a set of at most `ways` after an access to a block. -/
def refresh (ways : Nat) (blocks : List UInt64) (block : UInt64) : List UInt64 :=
  if blocks.contains block then block :: blocks.erase block else (block :: blocks).take ways

/-- The cache after an access to a block. -/
def use (c : RecencyCache) (block : UInt64) : RecencyCache :=
  let set := c.geometry.setOf block
  { c with sets := c.sets.insert set (refresh c.geometry.ways.toNat (c.blocks set) block) }

/-- Accesses an address: whether the access hits, and the cache after it. -/
def access (c : RecencyCache) (address : UInt64) : Except Fault (Bool × RecencyCache) :=
  if c.geometry.divides then
    let block := c.geometry.block address
    .ok (c.holds block, c.use block)
  else
    .error .zeroDivisor

end RecencyCache

end CacheTiming
