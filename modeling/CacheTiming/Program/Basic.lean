import CacheTiming.Digest.Keccak
import CacheTiming.Program.Instruction
import Std.Data.ExtTreeMap

/-! Access programs and their canonical text.

A program is a list of instructions with labels for places between them. Its canonical text has one
instruction a line, below the labels that stand in front of it in the order of their bytes; the digest
of this text identifies the program whatever its name. -/

namespace CacheTiming

open Text

/-- The places that labels stand for, in the order of the labels' bytes. -/
abbrev Labels := Std.ExtTreeMap Bytes UInt64

/-- An access program. -/
structure Program where
  name : String
  code : List Instruction
  labels : Labels

namespace Program

/-- The instruction at a place; behind the last one stands a halt. -/
def fetch (p : Program) (pc : UInt64) : Instruction :=
  p.code.getD pc.toNat { op := .halt }

/-- The operation at a place. -/
def opAt (p : Program) (pc : UInt64) : Opcode := (p.fetch pc).op

/-- The labels of a place, each on a line of its own. -/
def labelText (p : Program) (pc : Nat) : Bytes :=
  (p.labels.toList.filter fun (_, place) => place.toNat = pc).flatMap fun (label, _) => label ++ utf8 ":\n"

/-- The canonical text. -/
def text (p : Program) : Bytes :=
  p.code.zipIdx.flatMap (fun (i, pc) => p.labelText pc ++ i.text ++ [lineEnd]) ++ p.labelText p.code.length
where
  /-- What ends a line of the canonical text. -/
  lineEnd : UInt8 := 10

/-- The digest of the canonical text, in hexadecimal. -/
def fingerprint (p : Program) : String := "0x" ++ hexBytes (Digest.keccak256 p.text)

end Program

end CacheTiming
