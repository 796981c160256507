import CacheTiming.Program.Opcode
import CacheTiming.Text.Quoted

/-! Instructions, as they are read from words and shown as text. -/

namespace CacheTiming

open Text

/-- An instruction. A touch and a passing of time have a number as operand; a branch and a jump have
    a label, and their number is the place that the label stands for. -/
structure Instruction where
  op : Opcode
  arg : UInt64 := 0
  label : Bytes := []
deriving DecidableEq, Repr

/-- Why words are no instruction. -/
inductive InstructionError where
  | unknownOperation (word : Bytes)
  | unexpectedOperand (op : Opcode)
  | operandCount (op : Opcode)
  | badNumber (word : Bytes) (op : Opcode) (cause : NumeralError)
deriving DecidableEq, Repr

/-- The wording of an instruction error. -/
def InstructionError.message : InstructionError → String
  | .unknownOperation word => "unknown instruction " ++ quote word
  | .unexpectedOperand op => op.name ++ " takes no operand"
  | .operandCount op => op.name ++ " takes exactly one operand"
  | .badNumber word op cause =>
    "bad operand " ++ quote word ++ " for " ++ op.name ++ ": strconv.ParseUint: parsing " ++ quote word ++ ": " ++
      cause.message

namespace Instruction

/-- Reads an instruction from its first word and the words after it. A label is kept by name only. -/
def read (word : Bytes) (operands : List Bytes) : Except InstructionError Instruction :=
  match Opcode.ofWord? word with
  | none => .error (.unknownOperation word)
  | some op =>
    if op.hasOperand then
      match operands with
      | [operand] =>
        if op.takesLabel then
          .ok { op, label := operand }
        else
          match readNumeral operand with
          | .ok arg => .ok { op, arg }
          | .error e => .error (.badNumber operand op e)
      | _ => .error (.operandCount op)
    else if operands.isEmpty then
      .ok { op }
    else
      .error (.unexpectedOperand op)

/-- The text of an instruction: a label as it was written, a number in hexadecimal. -/
def text (i : Instruction) : Bytes :=
  if i.op.takesLabel then utf8 (i.op.name ++ " ") ++ i.label
  else if i.op.hasOperand then utf8 (i.op.name ++ " 0x" ++ hex 0 i.arg.toNat)
  else utf8 i.op.name

end Instruction

end CacheTiming
