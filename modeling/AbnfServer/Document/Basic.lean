-- One open document: its text, its version, and the line index of the text.
-- Every change of the text makes a new index.
import AbnfServer.Rule.Name
import AbnfServer.Text.Blank
import AbnfServer.Text.LineIndex

namespace AbnfServer

/-- A change to a document. Without a range it replaces the whole text. -/
structure Change where
  range : Option Range
  text : Text
deriving DecidableEq, Repr

/-- A document as the client last described it. -/
structure Document where
  uri : String
  text : Text
  version : Int
  index : LineIndex
deriving DecidableEq

namespace Document

def new (uri : String) (text : Text) (version : Int) : Document :=
  ⟨uri, text, version, .ofText text⟩

/-! ## Questions -/

def lineCount (d : Document) : Nat := d.index.lineCount

/-- A line as a reader sees it: the carriage returns at its end belong to the
line break. -/
def lineText? (d : Document) (line : Nat) : Option Text :=
  d.index.lines[line]?.map (Text.dropEndWhile (· = '\r'))

def offsetOf? (d : Document) (p : Position) : Option Nat := d.index.offsetOf? p

def positionOf (d : Document) (offset : Nat) : Position := d.index.positionOf offset

/-- The range of the whole text. -/
def fullRange (d : Document) : Range := d.index.rangeOf 0 d.text.bytes

/-- The run of name characters at the end of `before` and the start of
`after`. -/
def runAround (before after : Text) : Text × Text :=
  ((before.reverse.takeWhile Rule.isNameChar).reverse, after.takeWhile Rule.isNameChar)

/-- The word at a position and its range: the longest run of name characters
that the position lies in or next to. -/
def wordAt? (d : Document) (p : Position) : Option (Text × Range) := do
  let line ← d.lineText? p.line.toNat
  let before := line.takeUnits p.character.toNat
  let (left, right) := runAround before (line.drop before.length)
  if left ++ right = [] then none
  let start := before.units - left.units
  let stop := before.units + right.units
  return (left ++ right, ⟨⟨p.line, .ofNat start⟩, ⟨p.line, .ofNat stop⟩⟩)

/-! ## Changes -/

/-- The document with another text. -/
def withText (d : Document) (text : Text) : Document := { d with text, index := .ofText text }

def setContent (d : Document) (text : Text) (version : Int) : Document :=
  { d.withText text with version }

/-- Puts a new text between two byte offsets. -/
def replaceSpan (d : Document) (start stop : Nat) (newText : Text) : Document :=
  d.withText (d.text.takeBytes start ++ newText ++ d.text.dropBytes stop)

/-- Applies one change. A range that is reversed, or that has a line the
document has not, changes nothing. -/
def applyChange (d : Document) (c : Change) : Document :=
  match c.range with
  | none => d.withText c.text
  | some r =>
    match d.index.spanOf? r with
    | none => d
    | some (start, stop) => if start ≤ stop then d.replaceSpan start stop c.text else d

/-- Applies changes, each to the text that the one before it left. -/
def applyChanges (d : Document) (changes : List Change) (version : Int) : Document :=
  { changes.foldl applyChange d with version }

end Document

end AbnfServer
