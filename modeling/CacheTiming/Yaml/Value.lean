import CacheTiming.Text.Numeral
import CacheTiming.Yaml.Node

/-! What the values of a document mean.

A plain scalar may be null, a truth value or a number; everything else is a text. A number is an
integer literal, or a decimal fraction, which is rounded to 53 binary digits and then cut off at its
point. -/

namespace CacheTiming.Yaml

open CacheTiming.Text

/-- The meaning of a scalar. -/
inductive Value where
  | null
  | bool (b : Bool)
  | number (n : Int)
  | text (s : String)
deriving DecidableEq, Repr

/-! ### Numbers -/

/-- The number that decimal digits spell. -/
def decimal (digits : List Char) : Nat := digits.foldl (fun n c => n * 10 + (c.toNat - 48)) 0

/-- Splits off a sign: whether it is a minus, whether there is one, and what follows. -/
def splitSign (cs : List Char) : Bool × Bool × List Char :=
  match cs with
  | '-' :: rest => (true, true, rest)
  | '+' :: rest => (false, true, rest)
  | _ => (false, false, cs)

/-- An integer literal. With a sign it has to fit 64 bits with a sign. -/
def integer? (cs : List Char) : Option Int :=
  let (minus, signed, digits) := splitSign cs
  match readNumeral (utf8 (String.ofList digits)) with
  | .error _ => none
  | .ok n =>
    if !signed then some n.toNat
    else if minus then if n.toNat ≤ UInt64.size / 2 then some (-n.toNat) else none
    else if n.toNat < UInt64.size / 2 then some n.toNat else none

/-- The digits of a decimal fraction, taken as one number, and the power of ten to multiply it with. -/
def fraction? (cs : List Char) : Option (Nat × Int) :=
  let whole := cs.takeWhile Char.isDigit
  let rest := cs.dropWhile Char.isDigit
  let (places, rest) :=
    match rest with
    | '.' :: rest => (rest.takeWhile Char.isDigit, rest.dropWhile Char.isDigit)
    | _ => ([], rest)
  if whole.isEmpty && places.isEmpty then
    none
  else
    let mantissa := decimal (whole ++ places)
    match rest with
    | [] => some (mantissa, -places.length)
    | e :: rest =>
      let (minus, _, digits) := splitSign rest
      if (e = 'e' ∨ e = 'E') ∧ !digits.isEmpty ∧ digits.all Char.isDigit then
        let exponent : Int := if minus then -decimal digits else decimal digits
        some (mantissa, exponent - places.length)
      else
        none

/-- The whole part of the quotient of two positive numbers, which is first rounded to 53 binary digits
    with ties to even. -/
def roundedWhole (a b : Nat) : Nat :=
  -- The quotient lies between two powers of two, with exponents `excess - 1` and `excess + 1`.
  let excess : Int := a.log2 - b.log2
  let fits (shift : Int) : Bool :=
    if 0 ≤ shift then a < b <<< (shift.toNat + 53) else a <<< (-shift).toNat < b <<< 53
  let shift := if fits (excess - 53) then excess - 53 else excess - 52
  let (a, b) := if 0 ≤ shift then (a, b <<< shift.toNat) else (a <<< (-shift).toNat, b)
  let q := a / b
  let r := a % b
  let m := if b < 2 * r ∨ (b = 2 * r ∧ q % 2 = 1) then q + 1 else q
  if 0 ≤ shift then m <<< shift.toNat else m >>> (-shift).toNat

/-- The largest power of ten that matters: with a larger one a number is out of every range. -/
def powerLimit : Nat := 400

/-- The whole part of a decimal fraction. -/
def wholePart? (cs : List Char) : Option Int := do
  let (minus, _, digits) := splitSign cs
  let (mantissa, power) ← fraction? digits
  if mantissa = 0 ∨ power < -(powerLimit + digits.length : Int) then
    return 0
  else if powerLimit < power then
    none
  else
    let n := roundedWhole (mantissa * Nat.pow 10 power.toNat) (Nat.pow 10 (-power).toNat)
    return if minus then -n else n

/-- The number that a plain scalar spells. Underscores between its digits do not count. -/
def number? (s : String) : Option Int :=
  match s.toList with
  | [] => none
  | c :: rest =>
    let plain := (c :: rest).filter (· ≠ '_')
    if c.isDigit || c = '-' || c = '+' then integer? plain <|> wholePart? plain
    else if c = '.' then wholePart? (c :: rest)
    else none

/-! ### Meanings -/

/-- The meaning of a scalar. -/
def Value.ofScalar (s : String) (plain : Bool) : Value :=
  if !plain then .text s
  else if ["", "~", "null", "Null", "NULL"].contains s then .null
  else if ["true", "True", "TRUE"].contains s then .bool true
  else if ["false", "False", "FALSE"].contains s then .bool false
  else
    match number? s with
    | some n => .number n
    | none => .text s

namespace Node

/-- An integer from a range; nothing where the value is null. -/
def integer (least most : Int) : Node → Except Error (Option Int)
  | .scalar s plain =>
    match Value.ofScalar s plain with
    | .null => .ok none
    | .number n => if least ≤ n ∧ n ≤ most then .ok (some n) else .error .wrongKind
    | _ => .error .wrongKind
  | _ => .error .wrongKind

/-- An unsigned 64-bit number. -/
def word (v : Node) : Except Error (Option UInt64) :=
  (v.integer 0 (UInt64.size - 1)).map fun n => n.map fun n => n.toNat.toUInt64

/-- A signed 64-bit number. -/
def int (v : Node) : Except Error (Option Int) := v.integer Int64.minValue.toInt Int64.maxValue.toInt

/-- A truth value, for which there are some words more. -/
def bool : Node → Except Error (Option Bool)
  | .scalar s plain =>
    match Value.ofScalar s plain with
    | .null => .ok none
    | .bool b => .ok (some b)
    | .text s =>
      if ["y", "Y", "yes", "Yes", "YES", "on", "On", "ON"].contains s then .ok (some true)
      else if ["n", "N", "no", "No", "NO", "off", "Off", "OFF"].contains s then .ok (some false)
      else .error .wrongKind
    | .number _ => .error .wrongKind
  | _ => .error .wrongKind

/-- A text, which any scalar is as it is written. -/
def string : Node → Except Error (Option String)
  | .scalar s plain => if Value.ofScalar s plain = .null then .ok none else .ok (some s)
  | _ => .error .wrongKind

/-- The items of a sequence. -/
def items : Node → Except Error (Option (List Node))
  | .sequence items => .ok (some items)
  | .scalar s plain => if Value.ofScalar s plain = .null then .ok none else .error .wrongKind
  | .mapping _ => .error .wrongKind

/-- The text of a key. -/
def keyText? : Node → Option String
  | .scalar s _ => some s
  | _ => none

/-- The entries of a mapping by their keys, which have to be different scalars; an entry whose key is
    null does not count. -/
def fields : Node → Except Error (Option (List (String × Node)))
  | .mapping entries => do
    if entries.all fun (k, _) => k.keyText?.isSome then pure () else .error .wrongKind
    let keys := entries.filterMap fun (k, _) => k.keyText?
    if keys.eraseDups.length = keys.length then pure () else .error .duplicateKey
    let named ← entries.mapM fun (k, v) => return (← k.string).map fun s => (s, v)
    return some (named.filterMap id)
  | .scalar s plain => if Value.ofScalar s plain = .null then .ok none else .error .wrongKind
  | .sequence _ => .error .wrongKind

end Node

/-- Reads a field of a mapping; where it is missing or null the standard value holds. -/
def field {α : Type} (fields : List (String × Node)) (key : String) (read : Node → Except Error (Option α))
    (standard : α) : Except Error α :=
  match fields.lookup key with
  | none => .ok standard
  | some v => (read v).map (·.getD standard)

end CacheTiming.Yaml
