/-! Byte strings read as UTF-8.

A text is a list of bytes that need not be well-formed UTF-8. `glyphs` reads it from the left: where
a complete and shortest encoding of a character starts, that character is read, and any other byte
is read alone as a stray. No byte is lost, so a text can be taken apart and put together again. -/

namespace CacheTiming.Text

/-- A byte string. -/
abbrev Bytes := List UInt8

/-- The UTF-8 encoding of a string. -/
def utf8 (s : String) : Bytes := s.toUTF8.data.toList

/-- A character, or a byte that is no part of one. -/
inductive Glyph where
  | char (c : Char)
  | stray (b : UInt8)
deriving DecidableEq, Repr

/-- The bytes that a glyph was read from. -/
def Glyph.bytes : Glyph → Bytes
  | .char c => String.utf8EncodeChar c
  | .stray b => [b]

/-- The six low bits of a continuation byte. -/
def continuation? (b : UInt8) : Option Nat :=
  if 0x80 ≤ b ∧ b < 0xC0 then some (b.toNat - 0x80) else none

/-- The character with code point `n`, unless `n` is below `least` or no scalar value. -/
def scalar? (least n : Nat) : Option Char :=
  if least ≤ n ∧ n.isValidChar then some (Char.ofNat n) else none

/-- The character whose encoding starts with `b` and goes on in `rest`, with the number of bytes that
    it takes from `rest`. -/
def leading? (b : UInt8) (rest : Bytes) : Option (Char × Nat) :=
  if b < 0x80 then
    some (Char.ofNat b.toNat, 0)
  else if b < 0xC0 then
    none
  else if b < 0xE0 then
    match rest with
    | b₁ :: _ => do
      let x ← continuation? b₁
      let c ← scalar? 0x80 ((b.toNat - 0xC0) * 64 + x)
      some (c, 1)
    | _ => none
  else if b < 0xF0 then
    match rest with
    | b₁ :: b₂ :: _ => do
      let x ← continuation? b₁
      let y ← continuation? b₂
      let c ← scalar? 0x800 (((b.toNat - 0xE0) * 64 + x) * 64 + y)
      some (c, 2)
    | _ => none
  else if b < 0xF8 then
    match rest with
    | b₁ :: b₂ :: b₃ :: _ => do
      let x ← continuation? b₁
      let y ← continuation? b₂
      let z ← continuation? b₃
      let c ← scalar? 0x10000 ((((b.toNat - 0xF0) * 64 + x) * 64 + y) * 64 + z)
      some (c, 3)
    | _ => none
  else
    none

/-- Reads the glyphs of a text after its first `skip` bytes, onto the reverse of `done`. -/
def glyphsOnto (done : List Glyph) : (skip : Nat) → Bytes → List Glyph
  | _, [] => done.reverse
  | skip + 1, _ :: rest => glyphsOnto done skip rest
  | 0, b :: rest =>
    match leading? b rest with
    | some (c, more) => glyphsOnto (.char c :: done) more rest
    | none => glyphsOnto (.stray b :: done) 0 rest

/-- The glyphs of a text, from left to right. -/
def glyphs (s : Bytes) : List Glyph := glyphsOnto [] 0 s

/-- The text that a list of glyphs was read from. -/
def unglyphs (gs : List Glyph) : Bytes := gs.flatMap Glyph.bytes

/-- The character of a glyph that is one. -/
def Glyph.char? : Glyph → Option Char
  | .char c => some c
  | .stray _ => none

/-- The string that a text encodes, if it is well-formed. -/
def string? (s : Bytes) : Option String :=
  ((glyphs s).mapM Glyph.char?).map String.ofList

end CacheTiming.Text
