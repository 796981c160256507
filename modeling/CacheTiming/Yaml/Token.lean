import CacheTiming.Yaml.Scalar

/-! The tokens of a YAML stream.

Blocks are delimited by their indentation, for which the lexer keeps the columns of all open blocks.
That a text is a key shows only at the colon behind it, so the lexer remembers where a key may have
started: one candidate for the block and one for each open bracket. -/

namespace CacheTiming.Yaml

/-- A token. -/
inductive Token where
  | documentStart
  | documentEnd
  | streamEnd
  | blockSequence
  | blockMapping
  | blockEnd
  | flowSequence
  | flowSequenceEnd
  | flowMapping
  | flowMappingEnd
  | blockEntry
  | flowEntry
  | key
  | value
  /-- A scalar, and whether it is plain: quoted and literal scalars are texts whatever they look like. -/
  | scalar (text : String) (plain : Bool)
deriving DecidableEq, Repr

/-- A place where a key may have started. -/
structure Candidate where
  /-- Whether nothing but a key can stand here. -/
  required : Bool
  /-- The number of tokens in front. -/
  position : Nat
  line : Nat
  index : Nat
  column : Nat

/-- The state of the lexer. -/
structure Lexer where
  cursor : Cursor
  tokens : Array Token := #[]
  /-- The column of the innermost block. -/
  indent : Int := -1
  /-- The columns of the blocks around it. -/
  outer : List Int := []
  /-- Whether a key may start at the next token. -/
  keyAllowed : Bool := true
  /-- The candidate of the innermost bracket or of the block. -/
  candidate : Option Candidate := none
  /-- The candidates around it, one for each open bracket. -/
  candidates : List (Option Candidate) := []

namespace Lexer

/-- Whether a bracket is open. -/
def inFlow (l : Lexer) : Bool := !l.candidates.isEmpty

/-- Adds a token. -/
def push (l : Lexer) (t : Token) : Lexer := { l with tokens := l.tokens.push t }

/-- Moves on. -/
def skip (n : Nat) (l : Lexer) : Lexer := { l with cursor := l.cursor.skip n }

/-- Skips blanks, comments and line breaks. A tab is a blank only where no key may start, and a line
    break in a block lets a key start. -/
def skipBlanks : (fuel : Nat) → Lexer → Lexer
  | 0, l => l
  | fuel + 1, l =>
    match l.cursor.rest with
    | [] => l
    | x :: _ =>
      if x = ' ' ∨ (x = '\t' ∧ (l.inFlow ∨ !l.keyAllowed)) then skipBlanks fuel (l.skip 1)
      else if x = '#' then skipBlanks fuel { l with cursor := (l.cursor.span (!isBreak ·)).2 }
      else if isBreak x then skipBlanks fuel { l.skip 1 with keyAllowed := l.keyAllowed || !l.inFlow }
      else l

/-- Closes the blocks right of a column. -/
def closeBlocks (column : Int) : (outer : List Int) → Lexer → Lexer
  | [], l => l
  | next :: outer, l =>
    if column < l.indent then closeBlocks column outer { l.push .blockEnd with indent := next, outer }
    else l

/-- Closes the blocks right of a column, unless a bracket is open. -/
def unroll (l : Lexer) (column : Int) : Lexer := if l.inFlow then l else closeBlocks column l.outer l

/-- Opens a block at a column right of the innermost one, with its token at the given position. -/
def roll (l : Lexer) (column : Nat) (position : Nat) (t : Token) : Lexer :=
  if !l.inFlow && l.indent < column then
    { l with indent := column, outer := l.indent :: l.outer, tokens := l.tokens.insertIdxIfInBounds position t }
  else
    l

/-- Gives up the candidate, which must not be a required one. -/
def dropCandidate (l : Lexer) : Except Error Lexer :=
  match l.candidate with
  | some k => if k.required then l.cursor.malformed else .ok { l with candidate := none }
  | none => .ok l

/-- Makes the next token a candidate if a key may start there. -/
def saveCandidate (l : Lexer) : Except Error Lexer :=
  if l.keyAllowed then do
    let c := l.cursor
    let l ← l.dropCandidate
    return { l with
      candidate := some
        { required := !l.inFlow && l.indent = c.column, position := l.tokens.size, line := c.line, index := c.index,
          column := c.column } }
  else
    .ok l

/-- The largest number of characters between the start of a key and its colon. -/
def keyLimit : Nat := 1024

/-- The candidate, if the text since it can be a key: it must be on one line and not too long. -/
def liveCandidate (l : Lexer) : Except Error (Option Candidate) :=
  match l.candidate with
  | none => .ok none
  | some k =>
    if k.line < l.cursor.line ∨ k.index + keyLimit < l.cursor.index then
      if k.required then l.cursor.malformed else .ok none
    else
      .ok (some k)

/-- The mark of a document's start or end. -/
def readDocument (l : Lexer) (t : Token) : Except Error Lexer := do
  let l ← (l.unroll (-1)).dropCandidate
  return { l.push t with keyAllowed := false, cursor := l.cursor.skip 3 }

/-- An opening bracket. -/
def openFlow (l : Lexer) (t : Token) : Except Error Lexer := do
  let l ← l.saveCandidate
  return { (l.push t).skip 1 with keyAllowed := true, candidates := l.candidate :: l.candidates, candidate := none }

/-- A closing bracket. -/
def closeFlow (l : Lexer) (t : Token) : Except Error Lexer := do
  let l ← l.dropCandidate
  let l := { (l.push t).skip 1 with keyAllowed := false }
  match l.candidates with
  | [] => return l
  | k :: candidates => return { l with candidate := k, candidates }

/-- A comma. -/
def readComma (l : Lexer) : Except Error Lexer := do
  let l ← l.dropCandidate
  return { (l.push .flowEntry).skip 1 with keyAllowed := true }

/-- A dash. -/
def readDash (l : Lexer) : Except Error Lexer := do
  if !l.inFlow && !l.keyAllowed then
    l.cursor.malformed
  else
    let l ← (l.roll l.cursor.column l.tokens.size .blockSequence).dropCandidate
    return { (l.push .blockEntry).skip 1 with keyAllowed := true }

/-- A colon: what stands at the candidate turns out to be a key. -/
def readColon (l : Lexer) : Except Error Lexer := do
  match ← l.liveCandidate with
  | some k =>
    let l := { l with tokens := l.tokens.insertIdxIfInBounds k.position .key }
    let l := l.roll k.column k.position .blockMapping
    return { (l.push .value).skip 1 with candidate := none, keyAllowed := false }
  | none =>
    if !l.inFlow && !l.keyAllowed then
      l.cursor.malformed
    else
      let l := l.roll l.cursor.column l.tokens.size .blockMapping
      return { (l.push .value).skip 1 with candidate := none, keyAllowed := !l.inFlow }

/-- A plain scalar. -/
def readPlainScalar (l : Lexer) : Except Error Lexer := do
  let l ← l.saveCandidate
  let (text, broken, cursor) ←
    readPlain l.inFlow (l.indent + 1).toNat (l.cursor.rest.length + 1) [] [] false l.cursor
  return { l.push (.scalar text true) with cursor, keyAllowed := broken }

/-- A quoted scalar. -/
def readQuotedScalar (l : Lexer) (quote : Char) : Except Error Lexer := do
  let l ← l.saveCandidate
  let (text, cursor) ← readQuoted quote (l.cursor.rest.length + 1) [] l.cursor.next
  return { l.push (.scalar text false) with cursor, keyAllowed := false }

/-- A literal scalar. -/
def readLiteralScalar (l : Lexer) : Except Error Lexer := do
  let l ← l.dropCandidate
  let (text, cursor) ← readLiteral l.indent l.cursor.next
  return { l.push (.scalar text false) with cursor, keyAllowed := true }

/-- The end of the stream. -/
def readEnd (l : Lexer) : Except Error Lexer := do
  let l ← (l.unroll (-1)).dropCandidate
  return l.push .streamEnd

/-- The characters that no plain scalar starts with. -/
def indicators : List Char :=
  ['-', '?', ':', ',', '[', ']', '\x7b', '\x7d', '#', '&', '*', '!', '|', '>', '\'', '"', '%', '@', Char.ofNat 96]

/-- Reads the next token, and tokens that are implied by it. -/
def next (l : Lexer) : Except Error Lexer :=
  let l := l.skipBlanks (l.cursor.rest.length + 1)
  let l := l.unroll l.cursor.column
  match l.cursor.rest with
  | [] => l.readEnd
  | x :: rest =>
    if l.cursor.atMarker '-' then l.readDocument .documentStart
    else if l.cursor.atMarker '.' then l.readDocument .documentEnd
    else if x = '[' then l.openFlow .flowSequence
    else if x = '\x7b' then l.openFlow .flowMapping
    else if x = ']' then l.closeFlow .flowSequenceEnd
    else if x = '\x7d' then l.closeFlow .flowMappingEnd
    else if x = ',' then l.readComma
    else if x = '-' ∧ endsWord rest then l.readDash
    else if x = ':' ∧ (l.inFlow ∨ endsWord rest) then l.readColon
    else if x = '|' ∧ !l.inFlow then l.readLiteralScalar
    else if x = '\'' ∨ x = '"' then l.readQuotedScalar x
    else if x = '-' ∨ (!l.inFlow ∧ (x = '?' ∨ x = ':') ∧ !endsWord rest) then l.readPlainScalar
    else if isSpace x ∨ indicators.contains x then l.cursor.malformed
    else l.readPlainScalar

/-- Reads all tokens up to the end of the stream or the first error. -/
def readAll : (fuel : Nat) → Lexer → Array Token × Option Error
  | 0, l => (l.tokens, none)
  | fuel + 1, l =>
    match l.next with
    | .error e => (l.tokens, some e)
    | .ok l => if l.tokens.back? = some .streamEnd then (l.tokens, none) else readAll fuel l

end Lexer

/-- The tokens of a stream up to its first error, and that error. -/
def tokens (cs : List Char) : List Token × Option Error :=
  let (tokens, e) := Lexer.readAll (cs.length + 1) { cursor := { rest := cs } }
  (tokens.toList, e)

end CacheTiming.Yaml
