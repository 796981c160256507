/-! The geometry of a set-associative cache. -/

namespace CacheTiming

/-- The bytes of a line, the number of sets and the number of lines in a set. -/
structure Geometry where
  lineSize : UInt64
  sets : UInt64
  ways : UInt64
deriving DecidableEq, Repr

namespace Geometry

/-- The memory block that an address falls into. -/
def block (g : Geometry) (address : UInt64) : UInt64 := address / g.lineSize

/-- The set that a memory block maps to. -/
def setOf (g : Geometry) (block : UInt64) : UInt64 := block % g.sets

/-- Whether blocks and sets can be computed at all. -/
def divides (g : Geometry) : Bool := g.lineSize ≠ 0 && g.sets ≠ 0

end Geometry

end CacheTiming
