import CacheTiming.Text.Numeral
import Std.Data.ExtTreeMap
import Std.Data.ExtTreeSet

/-! Locations: the places where an analysis keeps a state. -/

namespace CacheTiming

/-- A place in the program, together with the number of backward jumps that were taken to reach it. -/
structure Location where
  pc : UInt64
  depth : Int
deriving DecidableEq, Repr

namespace Location

/-- The location before the first instruction. -/
def start : Location := { pc := 0, depth := 0 }

/-- Locations are ordered by their depth first and then by their place. -/
instance : Ord Location where
  compare := compareLex (compareOn Location.depth) (compareOn Location.pc)

instance : Std.TransOrd Location :=
  inferInstanceAs (Std.TransCmp (compareLex (compareOn Location.depth) (compareOn Location.pc)))

instance : Std.LawfulEqOrd Location where
  eq_of_compare {a b} h := by
    obtain ⟨h₁, h₂⟩ := compareLex_eq_eq.mp h
    cases a
    cases b
    simp_all [compareOn]

/-- Whether a location comes before another. -/
def before (a b : Location) : Bool := compare a b = .lt

/-- Whether going on at a place is a backward jump. -/
def goesBack (l : Location) (pc : UInt64) : Bool := pc ≤ l.pc

/-- The location reached by going on at a place; a backward jump adds to the depth unless that is at
    the limit already. -/
def next (l : Location) (unroll : Int) (pc : UInt64) : Location :=
  { pc, depth := if l.goesBack pc && l.depth < unroll then l.depth + 1 else l.depth }

/-- The place and the depth of a location in hexadecimal. -/
def text (l : Location) : String :=
  Text.hex 0 l.pc.toNat ++ ":" ++ (if l.depth < 0 then "-" else "") ++ Text.hex 0 l.depth.natAbs

end Location

end CacheTiming
