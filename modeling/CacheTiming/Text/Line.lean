import CacheTiming.Text.Glyph

/-! The lines of a text.

A line ends at a line feed or at the end of the text; what follows the last line feed is a line only
if it is not empty. A carriage return at the end of a line belongs to its end. -/

namespace CacheTiming.Text

/-- The line feed. -/
def lineFeed : UInt8 := 10

/-- The carriage return. -/
def carriageReturn : UInt8 := 13

/-- The least number of bytes, its carriage return included, that no line may have. -/
def lineLimit : Nat := 65536

/-- The lines of a text without their line feeds. -/
def lines (s : Bytes) : List Bytes :=
  let parts := s.splitOn lineFeed
  if parts.getLast? = some [] then parts.dropLast else parts

/-- A line without the carriage return at its end. -/
def chomp (line : Bytes) : Bytes :=
  if line.getLast? = some carriageReturn then line.dropLast else line

end CacheTiming.Text
