import CacheTiming.Program.Basic
import CacheTiming.Text.Blank
import CacheTiming.Text.Line

/-! The text of access programs.

Each line holds one instruction, or a label followed by a colon, or nothing; a semicolon starts a
comment. A label may be used before the line that defines it, so labels are resolved when all lines
are read. -/

namespace CacheTiming

open Text

/-- What a line says. -/
inductive Line where
  | blank
  | label (name : Bytes)
  | instruction (i : Instruction)
deriving DecidableEq, Repr

/-- Why a line says nothing that can be understood. -/
inductive LineError where
  | malformedLabel (text : Bytes)
  | badInstruction (cause : InstructionError)
deriving DecidableEq, Repr

/-- The wording of a line error. -/
def LineError.message : LineError → String
  | .malformedLabel text => "malformed label " ++ quote text
  | .badInstruction cause => cause.message

namespace Line

/-- The byte that starts a comment, a semicolon. -/
def commentMark : UInt8 := 59

/-- The byte that ends a label, a colon. -/
def labelMark : UInt8 := 58

/-- A line without its comment and the blanks around the rest. -/
def content (line : Bytes) : Bytes := trim ((chomp line).takeWhile (· ≠ commentMark))

/-- Whether a text can name a place: it has bytes, and no space and no tab among them. -/
def isLabel (s : Bytes) : Bool := !s.isEmpty && !s.contains 32 && !s.contains 9

/-- Reads a line. -/
def read (line : Bytes) : Except LineError Line :=
  let text := content line
  if text.getLast? = some labelMark then
    let name := trim text.dropLast
    if isLabel name then .ok (.label name) else .error (.malformedLabel text)
  else
    match words text with
    | [] => .ok .blank
    | word :: operands =>
      match Instruction.read word operands with
      | .ok i => .ok (.instruction i)
      | .error e => .error (.badInstruction e)

end Line

/-- Why a text is no program. Lines are counted from one. -/
inductive ParseError where
  | badLine (line : Nat) (cause : LineError)
  | duplicateLabel (line : Nat) (label : Bytes)
  | lineTooLong
  | undefinedLabel (label : Bytes)
deriving DecidableEq, Repr

/-- The wording of a parse error in the program with the given name. -/
def ParseError.message (name : String) : ParseError → String
  | .badLine line cause => name ++ ":" ++ line.repr ++ ": " ++ cause.message
  | .duplicateLabel line label => name ++ ":" ++ line.repr ++ ": duplicate label " ++ quote label
  | .lineTooLong => "bufio.Scanner: token too long"
  | .undefinedLabel label => name ++ ": undefined label " ++ quote label

namespace Program

/-- The lines read so far: the instructions, the last one first, their number, and the labels. -/
structure Draft where
  code : List Instruction := []
  size : Nat := 0
  labels : Labels := ∅

/-- Reads lines into a draft; the first of them has the given number. -/
def readLines : (number : Nat) → Draft → List Bytes → Except ParseError Draft
  | _, d, [] => .ok d
  | number, d, line :: rest =>
    if lineLimit ≤ line.length then
      .error .lineTooLong
    else
      match Line.read line with
      | .error e => .error (.badLine number e)
      | .ok .blank => readLines (number + 1) d rest
      | .ok (.label name) =>
        if d.labels.contains name then .error (.duplicateLabel number name)
        else readLines (number + 1) { d with labels := d.labels.insert name d.size.toUInt64 } rest
      | .ok (.instruction i) =>
        readLines (number + 1) { d with code := i :: d.code, size := d.size + 1 } rest

/-- Gives an instruction with a label the place that the label stands for. -/
def resolve (labels : Labels) (i : Instruction) : Except ParseError Instruction :=
  if i.op.takesLabel then
    match labels[i.label]? with
    | some place => .ok { i with arg := place }
    | none => .error (.undefinedLabel i.label)
  else
    .ok i

/-- Reads a program. -/
def parse (name : String) (text : Bytes) : Except ParseError Program := do
  let draft ← readLines 1 {} (lines text)
  let code ← draft.code.reverse.mapM (resolve draft.labels)
  return { name, code, labels := draft.labels }

end Program

end CacheTiming
