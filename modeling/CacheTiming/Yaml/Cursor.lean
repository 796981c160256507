import CacheTiming.Text.Glyph

/-! Positions in the text of a YAML stream. -/

namespace CacheTiming.Yaml

open CacheTiming.Text

/-- Why a text cannot be read as the data that is wanted. -/
inductive Error where
  /-- The text is not UTF-8, or holds a control character. -/
  | badCharacter
  /-- The text is not well-formed; lines are counted from one. -/
  | malformed (line : Nat)
  /-- A mapping has a key twice. -/
  | duplicateKey
  /-- A value is not of the kind that is wanted. -/
  | wrongKind
deriving DecidableEq, Repr

/-- The wording of an error. -/
def Error.message : Error → String
  | .badCharacter => "yaml: the text holds an invalid character"
  | .malformed line => "yaml: line " ++ line.repr ++ ": the text is malformed"
  | .duplicateKey => "yaml: a key is defined twice"
  | .wrongKind => "yaml: a value has the wrong kind"

/-- Whether a character may stand in a stream. -/
def isAllowed (c : Char) : Bool :=
  let n := c.toNat
  n == 0x09 || n == 0x0A || n == 0x0D || (0x20 ≤ n && n ≤ 0x7E) || n == 0x85 ||
    (0xA0 ≤ n && n ≤ 0xFFFD && n != 0xFEFF) || 0x10000 ≤ n

/-- Writes every line break as a line feed, apart from the two separators that Unicode has for lines
    and paragraphs. -/
def normalizeBreaks : List Char → List Char
  | [] => []
  | '\r' :: '\n' :: rest => '\n' :: normalizeBreaks rest
  | '\r' :: rest => '\n' :: normalizeBreaks rest
  | c :: rest => (if c.toNat = 0x85 then '\n' else c) :: normalizeBreaks rest

/-- The characters of a stream, without the mark of its encoding. -/
def characters (text : Bytes) : Except Error (List Char) :=
  match (glyphs text).mapM Glyph.char? with
  | none => .error .badCharacter
  | some cs =>
    let cs := if cs.head? = some (Char.ofNat 0xFEFF) then cs.tail else cs
    if cs.all isAllowed then .ok (normalizeBreaks cs) else .error .badCharacter

/-- Whether a character ends a line. -/
def isBreak (c : Char) : Bool := c = '\n' || c.toNat = 0x2028 || c.toNat = 0x2029

/-- Whether a character is a space or a tab. -/
def isSpace (c : Char) : Bool := c = ' ' || c = '\t'

/-- Whether a word ends where these characters follow. -/
def endsWord : List Char → Bool
  | [] => true
  | c :: _ => isSpace c || isBreak c

/-- A position: what follows, and where it is, lines and columns counted from zero. -/
structure Cursor where
  rest : List Char
  index : Nat := 0
  line : Nat := 0
  column : Nat := 0

namespace Cursor

/-- The position behind the next character. -/
def next (c : Cursor) : Cursor :=
  match c.rest with
  | [] => c
  | x :: rest =>
    if isBreak x then { rest, index := c.index + 1, line := c.line + 1, column := 0 }
    else { c with rest, index := c.index + 1, column := c.column + 1 }

/-- The position behind the next `n` characters. -/
def skip : (n : Nat) → Cursor → Cursor
  | 0, c => c
  | n + 1, c => skip n c.next

/-- The next characters as long as they satisfy a condition, and the position behind them. -/
def span (p : Char → Bool) (c : Cursor) : List Char × Cursor :=
  let taken := c.rest.takeWhile p
  (taken, c.skip taken.length)

/-- Whether a line starts here with three given characters that end a word. -/
def atMarker (c : Cursor) (mark : Char) : Bool :=
  c.column = 0 && [mark, mark, mark].isPrefixOf c.rest && endsWord (c.rest.drop 3)

/-- Whether a document starts or ends here. -/
def atDocument (c : Cursor) : Bool := c.atMarker '-' || c.atMarker '.'

/-- The error that the text is malformed here. -/
def malformed {α : Type} (c : Cursor) : Except Error α := .error (.malformed (c.line + 1))

end Cursor

end CacheTiming.Yaml
