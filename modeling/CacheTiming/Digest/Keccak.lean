import CacheTiming.Text.Glyph

/-! The 256-bit Keccak digest.

The sponge absorbs blocks of 136 bytes into a state of 25 lanes of 64 bits; lane `(x, y)` has index
`x + 5 * y`. A message is padded with one byte `0x01`, zeros up to a whole block, and the top bit of
the last byte. -/

namespace CacheTiming.Digest

open CacheTiming.Text

/-- The sponge's state. -/
abbrev Lanes := Vector UInt64 25

/-- The lane of a column and a row, both taken modulo five. -/
def lane (s : Lanes) (x y : Nat) : UInt64 :=
  s[x % 5 + 5 * (y % 5)]

/-- Rotates a lane towards its high bits. -/
def rotate (v : UInt64) (n : Nat) : UInt64 :=
  (v <<< n.toUInt64) ||| (v >>> (64 - n).toUInt64)

/-- How far each lane is rotated. -/
def offsets : Vector Nat 25 := #v[
  0, 1, 62, 28, 27,
  36, 44, 6, 55, 20,
  3, 10, 43, 25, 39,
  41, 45, 15, 21, 8,
  18, 2, 61, 56, 14]

/-- The constants that tell the rounds apart. -/
def roundConstants : List UInt64 := [
  0x0000000000000001, 0x0000000000008082, 0x800000000000808A, 0x8000000080008000,
  0x000000000000808B, 0x0000000080000001, 0x8000000080008081, 0x8000000000008009,
  0x000000000000008A, 0x0000000000000088, 0x0000000080008009, 0x000000008000000A,
  0x000000008000808B, 0x800000000000008B, 0x8000000000008089, 0x8000000000008003,
  0x8000000000008002, 0x8000000000000080, 0x000000000000800A, 0x800000008000000A,
  0x8000000080008081, 0x8000000000008080, 0x0000000080000001, 0x8000000080008008]

/-- Builds a state lane by lane. -/
def tabulate (f : (x y : Nat) → UInt64) : Lanes :=
  Vector.ofFn fun i => f (i.val % 5) (i.val / 5)

/-- Adds to every lane the parities of two columns nearby. -/
def theta (s : Lanes) : Lanes :=
  let parity : Vector UInt64 5 :=
    Vector.ofFn fun x => lane s x 0 ^^^ lane s x 1 ^^^ lane s x 2 ^^^ lane s x 3 ^^^ lane s x 4
  let column (x : Nat) : UInt64 := parity[x % 5]
  tabulate fun x y => lane s x y ^^^ column (x + 4) ^^^ rotate (column (x + 1)) 1

/-- Rotates every lane and moves it to its new place. -/
def rhoPi (s : Lanes) : Lanes :=
  tabulate fun x y => rotate (lane s (x + 3 * y) x) (offsets[(x + 3 * y) % 5 + 5 * (x % 5)])

/-- Combines every lane with the next two of its row. -/
def chi (s : Lanes) : Lanes :=
  tabulate fun x y => lane s x y ^^^ (~~~ (lane s (x + 1) y) &&& lane s (x + 2) y)

/-- One round with its constant. -/
def round (s : Lanes) (constant : UInt64) : Lanes :=
  let t := chi (rhoPi (theta s))
  t.set 0 (t[0] ^^^ constant)

/-- The permutation of the state. -/
def permute (s : Lanes) : Lanes := roundConstants.foldl round s

/-- The number of bytes in a block. -/
def rate : Nat := 136

/-- A message filled up to whole blocks. -/
def pad (message : Bytes) : Bytes :=
  let missing := rate - message.length % rate
  if missing = 1 then message ++ [0x81]
  else message ++ 0x01 :: (List.replicate (missing - 2) 0 ++ [0x80])

/-- The number that bytes spell, the least significant first. -/
def littleEndian (s : Bytes) : UInt64 := s.foldr (fun b n => n <<< 8 ||| b.toUInt64) 0

/-- The eight bytes of a lane, the least significant first. -/
def laneBytes (v : UInt64) : Bytes :=
  (List.range 8).map fun i => (v >>> (8 * i).toUInt64).toUInt8

/-- Absorbs one block. -/
def absorb (s : Lanes) (block : Bytes) : Lanes :=
  let words := ((List.range (rate / 8)).map fun i => littleEndian ((block.drop (8 * i)).take 8)).toArray
  permute (Vector.ofFn fun i => s[i] ^^^ words.getD i 0)

/-- Absorbs the first `n` blocks of a text. -/
def absorbBlocks : (n : Nat) → Lanes → Bytes → Lanes
  | 0, s, _ => s
  | n + 1, s, text => absorbBlocks n (absorb s (text.take rate)) (text.drop rate)

/-- The 32 bytes of the Keccak-256 digest of a message. -/
def keccak256 (message : Bytes) : Bytes :=
  let padded := pad message
  let s := absorbBlocks (padded.length / rate) (Vector.replicate 25 0) padded
  (s.toList.take 4).flatMap laneBytes

end CacheTiming.Digest
