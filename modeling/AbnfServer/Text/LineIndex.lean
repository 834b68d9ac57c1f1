-- The line index of a text: it goes from byte offsets to positions and back.
-- An offset is rounded down to a character, a position up to one, and a
-- column past the end of its line means the end of the line.
import AbnfServer.Text.Position

namespace AbnfServer

/-- The lines of a text, without their newlines. -/
structure LineIndex where
  lines : List Text
deriving DecidableEq

namespace LineIndex

def ofText (t : Text) : LineIndex := ⟨Text.lines t⟩

def lineCount (ix : LineIndex) : Nat := ix.lines.length

/-! ## From offsets to positions -/

/-- The line of an offset, and its column there. The newline of a line is
one byte, and stands in the column after its last character. -/
def locate : List Text → Nat → Nat × Nat
  | [], _ => (0, 0)
  | [l], o => (0, Text.units (Text.takeBytes o l))
  | l :: m :: ls, o =>
    if o ≤ Text.bytes l then (0, Text.units (Text.takeBytes o l))
    else
      let (line, column) := locate (m :: ls) (o - Text.bytes l - 1)
      (line + 1, column)

/-- The position of a byte offset. An offset past the end means the end. -/
def positionOf (ix : LineIndex) (offset : Nat) : Position :=
  let (line, column) := locate ix.lines offset
  .ofNat line column

def rangeOf (ix : LineIndex) (start stop : Nat) : Range := ⟨ix.positionOf start, ix.positionOf stop⟩

/-! ## From positions to offsets -/

/-- The byte offset at which a line starts. -/
def lineStart (ix : LineIndex) (line : Nat) : Nat :=
  Text.bytesOfLines (ix.lines.take line)

/-- The bytes of a line from its start to behind its newline, if it has one. -/
def lineSpan? (ix : LineIndex) (line : Nat) : Option (Nat × Nat) := do
  let l ← ix.lines[line]?
  let start := ix.lineStart line
  let newline := if line + 1 < ix.lineCount then 1 else 0
  return (start, start + Text.bytes l + newline)

/-- The byte offset of a position, unless its line is missing. -/
def offsetOf? (ix : LineIndex) (p : Position) : Option Nat :=
  ix.lines[p.line.toNat]?.map fun l =>
    ix.lineStart p.line.toNat + Text.bytes (Text.takeUnits p.character.toNat l)

/-- The byte offsets of the two ends of a range, when both lines are there. -/
def spanOf? (ix : LineIndex) (r : Range) : Option (Nat × Nat) := do
  return (← ix.offsetOf? r.start, ← ix.offsetOf? r.stop)

/-- The part of the indexed text `t` that a range covers. A reversed range
covers no part, not even an empty one. -/
def slice? (ix : LineIndex) (t : Text) (r : Range) : Option Text := do
  let (start, stop) ← ix.spanOf? r
  if start ≤ stop then some (Text.between start stop t) else none

end LineIndex

end AbnfServer
