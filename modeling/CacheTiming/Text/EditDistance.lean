import CacheTiming.Text.Glyph

/-! The edit distance: how many bytes have to be inserted, deleted or replaced to turn one text into
another. -/

namespace CacheTiming.Text

/-- The rest of a row of distances. The row above is given from the place diagonally above on, and
    `left` is the distance to the left. -/
def distancesFrom (a : UInt8) (left : Nat) : (t : Bytes) → (above : List Nat) → List Nat
  | b :: t, diagonal :: up :: above =>
    let d := if a = b then diagonal else min diagonal (min up left) + 1
    d :: distancesFrom a d t (up :: above)
  | _, _ => []

/-- The distances of a text that is one byte longer, to all beginnings of `t`. -/
def nextDistances (t : Bytes) (above : List Nat) (a : UInt8) : List Nat :=
  let first := above.headD 0 + 1
  first :: distancesFrom a first t above

/-- The edit distance of two texts. -/
def editDistance (s t : Bytes) : Nat :=
  (s.foldl (nextDistances t) (List.range (t.length + 1))).getLastD 0

end CacheTiming.Text
