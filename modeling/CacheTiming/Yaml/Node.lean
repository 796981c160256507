import CacheTiming.Yaml.Token

/-! The data of a YAML document. -/

namespace CacheTiming.Yaml

/-- A value in a document. -/
inductive Node where
  | scalar (text : String) (plain : Bool)
  | sequence (items : List Node)
  | mapping (entries : List (Node × Node))

/-- The value where nothing is written. -/
def Node.empty : Node := .scalar "" true

/-- What is left to be read: the tokens, and the error that comes behind them. -/
structure Remainder where
  tokens : List Token
  error : Option Error

namespace Remainder

/-- The next token. -/
def head? (r : Remainder) : Option Token := r.tokens.head?

/-- What follows the next token. -/
def tail (r : Remainder) : Remainder := { r with tokens := r.tokens.tail }

/-- The error that something else was expected here. -/
def refuse {α : Type} (r : Remainder) : Except Error α := .error (r.error.getD (.malformed 0))

/-- Whether no value is written here, since one of the given tokens comes next. -/
def lacks (r : Remainder) (ends : List Token) : Bool := r.head?.all ends.contains

end Remainder

mutual

/-- Reads a value. A value in a block may be a block itself, and the value of a key may be a sequence
    whose dashes stand in the column of the key. -/
def readNode (block keyed : Bool) : (fuel : Nat) → Remainder → Except Error (Node × Remainder)
  | 0, r => r.refuse
  | fuel + 1, r =>
    match r.head? with
    | some (.scalar text plain) => .ok (.scalar text plain, r.tail)
    | some .flowSequence => do
      let (items, r) ← readFlowSequence true fuel r.tail
      return (.sequence items, r)
    | some .flowMapping => do
      let (entries, r) ← readFlowMapping true fuel r.tail
      return (.mapping entries, r)
    | some .blockEntry =>
      if keyed then do
        let (items, r) ← readEntries false fuel r
        return (.sequence items, r)
      else
        r.refuse
    | some .blockSequence =>
      if block then do
        let (items, r) ← readEntries true fuel r.tail
        return (.sequence items, r)
      else
        r.refuse
    | some .blockMapping =>
      if block then do
        let (entries, r) ← readBlockMapping fuel r.tail
        return (.mapping entries, r)
      else
        r.refuse
    | _ => r.refuse

/-- Reads a value unless one of the given tokens comes next. -/
def readOptional (block keyed : Bool) (ends : List Token) : (fuel : Nat) → Remainder → Except Error (Node × Remainder)
  | 0, r => r.refuse
  | fuel + 1, r => if r.lacks ends then .ok (.empty, r) else readNode block keyed fuel r

/-- Reads the entries of a sequence in a block; `closed` tells whether the end of a block ends it. -/
def readEntries (closed : Bool) : (fuel : Nat) → Remainder → Except Error (List Node × Remainder)
  | 0, r => r.refuse
  | fuel + 1, r =>
    match r.head? with
    | some .blockEntry => do
      let ends := if closed then [.blockEntry, .blockEnd] else [.blockEntry, .key, .value, .blockEnd]
      let (item, r) ← readOptional true false ends fuel r.tail
      let (items, r) ← readEntries closed fuel r
      return (item :: items, r)
    | some .blockEnd => .ok ([], if closed then r.tail else r)
    | some _ => if closed then r.refuse else .ok ([], r)
    | none => r.refuse

/-- Reads the entries of a mapping in a block. -/
def readBlockMapping : (fuel : Nat) → Remainder → Except Error (List (Node × Node) × Remainder)
  | 0, r => r.refuse
  | fuel + 1, r =>
    match r.head? with
    | some .key => do
      let (key, r) ← readOptional true true [.key, .value, .blockEnd] fuel r.tail
      let (value, r) ←
        if r.head? = some .value then readOptional true true [.key, .value, .blockEnd] fuel r.tail
        else .ok (.empty, r)
      let (entries, r) ← readBlockMapping fuel r
      return ((key, value) :: entries, r)
    | some .blockEnd => .ok ([], r.tail)
    | _ => r.refuse

/-- Reads the items of a sequence in brackets. -/
def readFlowSequence (first : Bool) : (fuel : Nat) → Remainder → Except Error (List Node × Remainder)
  | 0, r => r.refuse
  | fuel + 1, r =>
    if r.head? = some .flowSequenceEnd then
      .ok ([], r.tail)
    else if !first && r.head? ≠ some .flowEntry then
      r.refuse
    else do
      let r := if first then r else r.tail
      match r.head? with
      | some .flowSequenceEnd => return ([], r.tail)
      | some .key =>
        let (key, r) ← readOptional false false [.value, .flowEntry, .flowSequenceEnd] fuel r.tail
        let (value, r) ←
          if r.head? = some .value then readOptional false false [.flowEntry, .flowSequenceEnd] fuel r.tail
          else .ok (.empty, r)
        let (items, r) ← readFlowSequence false fuel r
        return (.mapping [(key, value)] :: items, r)
      | _ =>
        let (item, r) ← readNode false false fuel r
        let (items, r) ← readFlowSequence false fuel r
        return (item :: items, r)

/-- Reads the entries of a mapping in braces. -/
def readFlowMapping (first : Bool) : (fuel : Nat) → Remainder → Except Error (List (Node × Node) × Remainder)
  | 0, r => r.refuse
  | fuel + 1, r =>
    if r.head? = some .flowMappingEnd then
      .ok ([], r.tail)
    else if !first && r.head? ≠ some .flowEntry then
      r.refuse
    else do
      let r := if first then r else r.tail
      match r.head? with
      | some .flowMappingEnd => return ([], r.tail)
      | some .key =>
        let (key, r) ← readOptional false false [.value, .flowEntry, .flowMappingEnd] fuel r.tail
        let (value, r) ←
          if r.head? = some .value then readOptional false false [.flowEntry, .flowMappingEnd] fuel r.tail
          else .ok (.empty, r)
        let (entries, r) ← readFlowMapping false fuel r
        return ((key, value) :: entries, r)
      | _ =>
        let (key, r) ← readNode false false fuel r
        let (entries, r) ← readFlowMapping false fuel r
        return ((key, .empty) :: entries, r)

end

/-- The number of tokens that have to be readable from the end of a document on. -/
def lookahead : Nat := 3

/-- Reads the first document of a stream, if there is one; what comes behind it does not count. -/
def readDocument (text : Text.Bytes) : Except Error (Option Node) := do
  let cs ← characters text
  let (ts, error) := tokens cs
  let fuel := 3 * ts.length + 3
  let (node, r) ←
    match ts with
    | [.streamEnd] => return none
    | .documentStart :: rest =>
      readOptional true false [.documentStart, .documentEnd, .streamEnd] fuel { tokens := rest, error }
    | _ => readNode true false fuel { tokens := ts, error }
  match error with
  | some e => if r.tokens.length < lookahead then .error e else return some node
  | none => return some node

end CacheTiming.Yaml
