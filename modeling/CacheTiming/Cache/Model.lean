import CacheTiming.Fault

/-! What an analysis needs from an abstract cache. -/

namespace CacheTiming

/-- The caches after an access that hits and after one that misses; an outcome that is impossible has
    none. -/
structure Outcomes (χ : Type) where
  hit : Option χ
  miss : Option χ

/-- A model of caches. Its operations never change a cache in place, and fail only by a fault. -/
class CacheModel (χ : Type) where
  /-- Accesses an address. -/
  touch : χ → UInt64 → Except Fault (Outcomes χ)
  /-- Lets time pass without an access. -/
  elapse : χ → UInt64 → χ
  /-- A cache that covers two others. -/
  join : χ → χ → Except Fault χ
  /-- A cache that covers two others, found in a way that makes repeated widening end. -/
  widen : χ → χ → Except Fault χ
  /-- Whether the second cache covers the first. -/
  subseteq : χ → χ → Except Fault Bool
  /-- Describes a cache. -/
  render : χ → Except Fault String
  /-- Describes how a cache differs from an earlier one. -/
  renderChange : (earlier later : χ) → Except Fault String

end CacheTiming
