import CacheTiming.Text.Numeral

/-! The operations of access programs.

Every byte is an operation code, but only five have a meaning; the others are kept as they are, so
that a program with undefined codes can be represented, shown and refused. -/

namespace CacheTiming

open Text

/-- An operation code. -/
inductive Opcode where
  /-- Ends the execution. -/
  | halt
  /-- Accesses the memory at an address. -/
  | touch
  /-- Lets time pass without an access. -/
  | elapse
  /-- Goes on either with the next instruction or at a target. -/
  | branch
  /-- Goes on at a target. -/
  | jump
  /-- A code without a meaning. -/
  | undefined (code : UInt8) (above : 4 < code)
deriving DecidableEq, Repr

namespace Opcode

/-- The operation with a given code. -/
def ofByte (b : UInt8) : Opcode :=
  if h : 4 < b then .undefined b h
  else if b = 0 then .halt
  else if b = 1 then .touch
  else if b = 2 then .elapse
  else if b = 3 then .branch
  else .jump

/-- The code of an operation. -/
def toByte : Opcode → UInt8
  | .halt => 0
  | .touch => 1
  | .elapse => 2
  | .branch => 3
  | .jump => 4
  | .undefined code _ => code

/-- Whether the code has a meaning. -/
def isDefined : Opcode → Bool
  | .undefined .. => false
  | _ => true

/-- Whether an instruction with this operation has an operand. -/
def hasOperand : Opcode → Bool
  | .touch | .elapse | .branch | .jump => true
  | _ => false

/-- Whether the operation ends the execution. -/
def halts : Opcode → Bool
  | .halt => true
  | _ => false

/-- Whether the operation always goes on at its target. -/
def jumps : Opcode → Bool
  | .jump => true
  | _ => false

/-- Whether the operation has two successors. -/
def branches : Opcode → Bool
  | .branch => true
  | _ => false

/-- Whether the operand is a label. -/
def takesLabel (op : Opcode) : Bool := op.jumps || op.branches

/-- Whether a machine can run the operation by itself; a branch needs to be told its successor. -/
def executes : Opcode → Bool
  | .halt | .touch | .elapse | .jump => true
  | _ => false

/-- The name of an operation in program texts, or a note that the code has no meaning. -/
def name : Opcode → String
  | .halt => "HALT"
  | .touch => "TOUCH"
  | .elapse => "ELAPSE"
  | .branch => "BRANCH"
  | .jump => "JUMP"
  | .undefined code _ => "opcode 0x" ++ hex 0 code.toNat ++ " not defined"

/-- The operations with a meaning. -/
def all : List Opcode := [.halt, .touch, .elapse, .branch, .jump]

/-- The ASCII capital that is the simple upper case of a character. Apart from the ASCII letters only
    the dotless i and the long s have one. -/
def capital? (c : Char) : Option Char :=
  if 'A' ≤ c ∧ c ≤ 'Z' then some c
  else if 'a' ≤ c ∧ c ≤ 'z' then some (Char.ofNat (c.toNat - 32))
  else if c.toNat = 0x131 then some 'I'
  else if c.toNat = 0x17F then some 'S'
  else none

/-- The operation that a word names, in capital or small letters. -/
def ofWord? (word : Bytes) : Option Opcode := do
  let letters ← (glyphs word).mapM fun g => g.char? >>= capital?
  all.find? fun op => op.name = String.ofList letters

end Opcode

end CacheTiming
