import CacheTiming.Yaml.Cursor

/-! The texts of YAML scalars: plain, quoted and literal. -/

namespace CacheTiming.Yaml

/-- What stands for the white space between two parts of a scalar: blanks on one line are kept, a
    single line break is a space, and of several line breaks the first is dropped. -/
def fold (spaces : List Char) : (breaks : List Char) → List Char
  | [] => spaces
  | '\n' :: [] => [' ']
  | '\n' :: more => more
  | breaks => breaks

/-- Reads blanks and line breaks: the blanks before the first line break, the line breaks, and the
    position behind all. A tab behind a line break must not stand left of the column `least`. -/
def readGap (least : Nat) (c : Cursor) : Except Error (List Char × List Char × Cursor) :=
  let (spaces, c) := c.span isSpace
  let rec go : (fuel : Nat) → (breaks : List Char) → Cursor → Except Error (List Char × Cursor)
    | 0, breaks, c => .ok (breaks.reverse, c)
    | fuel + 1, breaks, c =>
      match c.rest with
      | x :: _ =>
        if isBreak x then go fuel (x :: breaks) c.next
        else if isSpace x then
          if x = '\t' ∧ c.column < least then c.malformed else go fuel breaks c.next
        else .ok (breaks.reverse, c)
      | [] => .ok (breaks.reverse, c)
  match c.rest.head?.map isBreak with
  | some true => do
    let (breaks, c) ← go c.rest.length [] c
    return (spaces, breaks, c)
  | _ => .ok (spaces, [], c)

/-! ### Plain scalars -/

/-- The characters that end a plain scalar inside brackets. -/
def flowIndicators : List Char := [',', '?', '[', ']', '\x7b', '\x7d']

/-- The characters of a plain scalar up to white space or something that ends the scalar. -/
def plainWord (flow : Bool) : List Char → List Char
  | [] => []
  | c :: rest =>
    if isSpace c || isBreak c || (c = ':' && endsWord rest) || (flow && flowIndicators.contains c) then []
    else c :: plainWord flow rest

/-- Reads a plain scalar, of which `text` is read already, in reverse order, and followed by the white
    space `gap`. The scalar goes on in a line that is indented by at least `least` columns. The answer
    also tells whether line breaks behind the scalar are read. -/
def readPlain (flow : Bool) (least : Nat) :
    (fuel : Nat) → (text gap : List Char) → (broken : Bool) → Cursor → Except Error (String × Bool × Cursor)
  | 0, _, _, _, c => c.malformed
  | fuel + 1, text, gap, broken, c =>
    if c.atDocument || c.rest.head? = some '#' then
      .ok (String.ofList text.reverse, broken, c)
    else
      match plainWord flow c.rest with
      | [] => .ok (String.ofList text.reverse, broken, c)
      | word => do
        let text := word.reverse ++ gap.reverse ++ text
        let (spaces, breaks, c) ← readGap least (c.skip word.length)
        if spaces.isEmpty && breaks.isEmpty then
          return (String.ofList text.reverse, false, c)
        else if !breaks.isEmpty && !flow && c.column < least then
          return (String.ofList text.reverse, true, c)
        else
          readPlain flow least fuel text (fold spaces breaks) (!breaks.isEmpty) c

/-! ### Quoted scalars -/

/-- The character that a letter stands for behind a backslash. -/
def escape? (c : Char) : Option Char :=
  match c with
  | '0' => some (Char.ofNat 0)
  | 'a' => some (Char.ofNat 7)
  | 'b' => some (Char.ofNat 8)
  | 't' | '\t' => some '\t'
  | 'n' => some '\n'
  | 'v' => some (Char.ofNat 11)
  | 'f' => some (Char.ofNat 12)
  | 'r' => some '\r'
  | 'e' => some (Char.ofNat 27)
  | ' ' | '"' | '\'' | '/' | '\\' => some c
  | 'N' => some (Char.ofNat 0x85)
  | '_' => some (Char.ofNat 0xA0)
  | 'L' => some (Char.ofNat 0x2028)
  | 'P' => some (Char.ofNat 0x2029)
  | _ => none

/-- How many hexadecimal digits follow a letter behind a backslash. -/
def escapeWidth? (c : Char) : Option Nat :=
  match c with
  | 'x' => some 2
  | 'u' => some 4
  | 'U' => some 8
  | _ => none

/-- The value of a hexadecimal digit. -/
def hexDigit? (c : Char) : Option Nat :=
  if '0' ≤ c ∧ c ≤ '9' then some (c.toNat - 48)
  else if 'a' ≤ c ∧ c ≤ 'f' then some (c.toNat - 87)
  else if 'A' ≤ c ∧ c ≤ 'F' then some (c.toNat - 55)
  else none

/-- The character with the number that `width` hexadecimal digits spell. -/
def readEscape? (width : Nat) (cs : List Char) : Option Char := do
  let digits ← (cs.take width).mapM hexDigit?
  let n := digits.foldl (fun n d => n * 16 + d) 0
  if digits.length = width ∧ n.isValidChar then some (Char.ofNat n) else none

/-- Reads a quoted scalar up to its closing quote, of which `text` is read already, in reverse order. -/
def readQuoted (quote : Char) : (fuel : Nat) → (text : List Char) → Cursor → Except Error (String × Cursor)
  | 0, _, c => c.malformed
  | fuel + 1, text, c =>
    if c.atDocument then
      c.malformed
    else
      match c.rest with
      | [] => c.malformed
      | x :: rest =>
        if isSpace x || isBreak x then do
          let (spaces, breaks, c) ← readGap 0 c
          readQuoted quote fuel ((fold spaces breaks).reverse ++ text) c
        else if x = quote then
          if quote = '\'' ∧ rest.head? = some '\'' then readQuoted quote fuel ('\'' :: text) (c.skip 2)
          else .ok (String.ofList text.reverse, c.next)
        else if quote = '"' ∧ x = '\\' then
          match rest with
          | [] => c.malformed
          | y :: digits =>
            if isBreak y then do
              -- The line break is dropped, with all that would be dropped behind it.
              let (_, breaks, c) ← readGap 0 c.next
              readQuoted quote fuel (breaks.tail.reverse ++ text) c
            else
              match escape? y, escapeWidth? y with
              | some e, _ => readQuoted quote fuel (e :: text) (c.skip 2)
              | none, some width =>
                match readEscape? width digits with
                | some e => readQuoted quote fuel (e :: text) (c.skip (2 + width))
                | none => c.malformed
              | none, none => c.malformed
        else readQuoted quote fuel (x :: text) c.next

/-! ### Literal scalars -/

/-- What happens to the line breaks at the end of a literal scalar. -/
inductive Chomping where
  /-- All are dropped. -/
  | strip
  /-- The first is kept. -/
  | clip
  /-- All are kept. -/
  | keep
deriving DecidableEq, Repr

/-- The chomping that a sign asks for. -/
def Chomping.ofSign? (c : Char) : Option Chomping :=
  if c = '-' then some .strip else if c = '+' then some .keep else none

/-- The indentation that a digit asks for. -/
def indentDigit? (c : Char) : Option Nat :=
  if '1' ≤ c ∧ c ≤ '9' then some (c.toNat - 48) else none

/-- Reads what may follow the bar of a literal scalar: a sign and a digit in either order. -/
def readHeader (c : Cursor) : Chomping × Option Nat × Cursor :=
  match c.rest with
  | x :: rest =>
    match Chomping.ofSign? x, indentDigit? x with
    | some chomping, _ =>
      match rest.head? >>= indentDigit? with
      | some n => (chomping, some n, c.skip 2)
      | none => (chomping, none, c.next)
    | none, some n =>
      match rest.head? >>= Chomping.ofSign? with
      | some chomping => (chomping, some n, c.skip 2)
      | none => (.clip, some n, c.next)
    | none, none => (.clip, none, c)
  | [] => (.clip, none, c)

/-- Reads indentation and empty lines: the line breaks, the widest indentation seen, and the position
    behind them. Without a `limit` all spaces belong to the indentation; a tab never does. -/
def readIndents (limit : Option Nat) :
    (fuel : Nat) → (breaks : List Char) → (widest : Nat) → Cursor → Except Error (List Char × Nat × Cursor)
  | 0, _, _, c => c.malformed
  | fuel + 1, breaks, widest, c =>
    let room (column : Nat) : Bool := (limit.map fun n => decide (column < n)).getD true
    let spaces := (c.rest.takeWhile (· = ' ')).length
    let c := c.skip (match limit with | some n => min spaces (n - c.column) | none => spaces)
    let widest := max widest c.column
    match c.rest with
    | x :: _ =>
      if x = '\t' ∧ room c.column then c.malformed
      else if isBreak x then readIndents limit fuel (x :: breaks) widest c.next
      else .ok (breaks.reverse, widest, c)
    | [] => .ok (breaks.reverse, widest, c)

/-- Reads the lines of a literal scalar that are indented by `indent` columns. The text so far, in
    reverse order, is followed by the line break `last` and the empty lines `empty`. -/
def readLiteralLines (indent : Nat) :
    (fuel : Nat) → (text last empty : List Char) → Cursor → Except Error (List Char × List Char × List Char × Cursor)
  | 0, _, _, _, c => c.malformed
  | fuel + 1, text, last, empty, c =>
    if c.column = indent ∧ !c.rest.isEmpty then do
      let (line, c) := c.span (!isBreak ·)
      let text := line.reverse ++ empty.reverse ++ last ++ text
      let last := c.rest.take 1
      let (empty, _, c) ← readIndents (some indent) (c.rest.length + 1) [] 0 c.next
      readLiteralLines indent fuel text last empty c
    else
      .ok (text, last, empty, c)

/-- Reads a literal scalar behind its bar; the text around it is indented by `outer` columns. -/
def readLiteral (outer : Int) (c : Cursor) : Except Error (String × Cursor) := do
  let (chomping, digit, c) := readHeader c
  let (_, c) := c.span isSpace
  let c := if c.rest.head? = some '#' then (c.span (!isBreak ·)).2 else c
  match c.rest with
  | x :: _ => if !isBreak x then c.malformed
  | [] => pure ()
  let c := c.next
  let fixed := digit.map fun n => if 0 ≤ outer then outer.toNat + n else n
  let (empty, widest, c) ← readIndents fixed (c.rest.length + 1) [] 0 c
  let indent := fixed.getD (max (max widest (outer + 1).toNat) 1)
  let (text, last, empty, c) ← readLiteralLines indent (c.rest.length + 1) [] [] empty c
  let tail :=
    match chomping with
    | .strip => []
    | .clip => last
    | .keep => last ++ empty
  return (String.ofList (text.reverse ++ tail), c)

end CacheTiming.Yaml
