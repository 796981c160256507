import CacheTiming.Text.Glyph

/-! White space, and the trimming and splitting of texts at it.

The blanks are the characters with the Unicode property `White_Space`. -/

namespace CacheTiming.Text

/-- Whether a character is white space. -/
def isBlank (c : Char) : Bool :=
  let n := c.toNat
  (9 ≤ n && n ≤ 13) || n == 0x20 || n == 0x85 || n == 0xA0 || n == 0x1680 ||
    (0x2000 ≤ n && n ≤ 0x200A) || n == 0x2028 || n == 0x2029 || n == 0x202F || n == 0x205F ||
    n == 0x3000

/-- Whether a glyph is white space; a stray byte never is. -/
def Glyph.isBlank : Glyph → Bool
  | .char c => Text.isBlank c
  | .stray _ => false

/-- Drops the blanks at both ends. -/
def trimGlyphs (gs : List Glyph) : List Glyph :=
  ((gs.dropWhile Glyph.isBlank).reverse.dropWhile Glyph.isBlank).reverse

/-- A text without the blanks at its ends. -/
def trim (s : Bytes) : Bytes := unglyphs (trimGlyphs (glyphs s))

/-- The maximal runs of a text that hold no blank, from left to right. -/
def words (s : Bytes) : List Bytes :=
  (((glyphs s).splitOnP Glyph.isBlank).filter (!·.isEmpty)).map unglyphs

end CacheTiming.Text
