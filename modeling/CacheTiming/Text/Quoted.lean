import CacheTiming.Text.Numeral
import CacheTiming.Text.Printable

/-! Quoted texts.

A text is quoted between double quotes. Printable characters stand for themselves, a quote and a
backslash follow a backslash, seven control characters have a letter of their own, and everything
else is written by its number: two hexadecimal digits for a control character or a stray byte, four
or eight for any other character. -/

namespace CacheTiming.Text

/-- The letter that stands for a control character behind a backslash. -/
def controlLetter? (c : Char) : Option Char :=
  match c.toNat with
  | 7 => some 'a'
  | 8 => some 'b'
  | 9 => some 't'
  | 10 => some 'n'
  | 11 => some 'v'
  | 12 => some 'f'
  | 13 => some 'r'
  | _ => none

/-- How a glyph is written between quotes. -/
def Glyph.quoted : Glyph → String
  | .stray b => "\\x" ++ hex 2 b.toNat
  | .char c =>
    if c = '"' ∨ c = '\\' then
      String.ofList ['\\', c]
    else if isPrintable c then
      String.singleton c
    else
      match controlLetter? c with
      | some letter => String.ofList ['\\', letter]
      | none =>
        if c.toNat < 0x20 ∨ c.toNat = 0x7F then "\\x" ++ hex 2 c.toNat
        else if c.toNat < 0x10000 then "\\u" ++ hex 4 c.toNat
        else "\\U" ++ hex 8 c.toNat

/-- A text between quotes. -/
def quote (s : Bytes) : String := "\"" ++ String.join ((glyphs s).map Glyph.quoted) ++ "\""

/-- A string between quotes. -/
def quoteString (s : String) : String := quote (utf8 s)

end CacheTiming.Text
