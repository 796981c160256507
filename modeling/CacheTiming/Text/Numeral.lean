import CacheTiming.Text.Glyph

/-! Numerals: hexadecimal digits, and unsigned 64-bit literals.

A literal is written in base ten, or in base two, eight or sixteen after `0b`, `0o` or `0x`; a zero in
front of other digits also means base eight. A `_` may stand between two digits, where the mark of the
base counts as a digit. Digits are read from the left, and the first problem decides the error. -/

namespace CacheTiming.Text

/-- The lowercase hexadecimal digits of a number, the most significant first. -/
def hexDigits (n : Nat) : List Char := Nat.toDigits 16 n

/-- A number in lowercase hexadecimal, with zeros in front up to `width` digits. -/
def hex (width n : Nat) : String :=
  let digits := hexDigits n
  String.ofList (List.replicate (width - digits.length) '0' ++ digits)

/-- A text as two lowercase hexadecimal digits a byte. -/
def hexBytes (s : Bytes) : String := String.join (s.map fun b => hex 2 b.toNat)

/-- Why a text is no unsigned 64-bit literal. -/
inductive NumeralError where
  | malformed
  | tooLarge
deriving DecidableEq, Repr

/-- The wording of a numeral error. -/
def NumeralError.message : NumeralError → String
  | .malformed => "invalid syntax"
  | .tooLarge => "value out of range"

/-- The byte with its case bit set, which turns a capital letter into the small one. -/
def lowerByte (b : UInt8) : UInt8 := b ||| 0x20

/-- The value of a digit or letter, where `a` counts ten whatever the base. -/
def digitValue? (b : UInt8) : Option Nat :=
  if 48 ≤ b ∧ b ≤ 57 then
    some (b.toNat - 48)
  else if 97 ≤ lowerByte b ∧ lowerByte b ≤ 122 then
    some ((lowerByte b).toNat - 87)
  else
    none

/-- The byte that may separate digits, `_`. -/
def underscore : UInt8 := 95

/-- Reads the digits of a literal in the given base onto the number `n` read so far. -/
def readDigits (base : Nat) : (n : Nat) → Bytes → Except NumeralError Nat
  | n, [] => .ok n
  | n, b :: rest =>
    if b = underscore then
      readDigits base n rest
    else
      match digitValue? b with
      | none => .error .malformed
      | some d =>
        if base ≤ d then .error .malformed
        else if UInt64.size ≤ n * base + d then .error .tooLarge
        else readDigits base (n * base + d) rest

/-- Whether every `_` stands behind a digit and before another; `digit` tells whether a digit is
    directly in front. -/
def wellSeparated : (digit : Bool) → Bytes → Bool
  | digit, [] => digit
  | digit, b :: rest => if b = underscore then digit && wellSeparated false rest else wellSeparated true rest

/-- The base of a literal, whether a mark of it stands in front, and the digits after that mark. -/
def splitBase (s : Bytes) : Nat × Bool × Bytes :=
  match s with
  | 48 :: mark :: d :: rest =>
    if lowerByte mark = 98 then (2, true, d :: rest)
    else if lowerByte mark = 111 then (8, true, d :: rest)
    else if lowerByte mark = 120 then (16, true, d :: rest)
    else (8, true, mark :: d :: rest)
  | 48 :: rest => (8, true, rest)
  | _ => (10, false, s)

/-- Reads an unsigned 64-bit literal. -/
def readNumeral (s : Bytes) : Except NumeralError UInt64 :=
  if s.isEmpty then
    .error .malformed
  else
    let (base, marked, digits) := splitBase s
    match readDigits base 0 digits with
    | .error e => .error e
    | .ok n => if underscore ∈ digits ∧ !wellSeparated marked digits then .error .malformed else .ok n.toUInt64

end CacheTiming.Text
