-- The occurrences of a rule name in a text: first those that stand as a
-- whole word, then those in angle brackets. A name in brackets is found
-- twice, and whoever edits the text has to choose.
import AbnfServer.Rule.Name
import AbnfServer.Text.LineIndex

namespace AbnfServer.Rule

/-- One occurrence of a rule name. The range of a bracketed one takes in the
brackets. -/
structure Reference where
  location : Location
  bracketed : Bool
deriving DecidableEq, Repr

/-! ## Words -/

/-- The characters of a word, as the word search has them: letters, digits and
the low line of ASCII. A hyphen is none. -/
def isWordChar (c : Char) : Bool := c.isAlphanum || c == '_'

/-- A word starts or ends between two neighbours when just one of them is a
word character. Outside the text there is none. -/
def isBoundary (left right : Option Char) : Bool := left.any isWordChar != right.any isWordChar

/-- How a text is searched: the pattern, and whether it has to stand as a
whole word. -/
structure Search where
  pattern : Text
  wholeWord : Bool

/-- Whether the pattern starts here, behind the character `before`. -/
def Search.startsAt (s : Search) (before : Option Char) (t : Text) : Bool :=
  s.pattern.isPrefixOf t &&
    (!s.wholeWord ||
      isBoundary before s.pattern.head? &&
        isBoundary s.pattern.getLast? (t.drop s.pattern.length).head?)

/-- The byte offsets at which the pattern occurs, from left to right; an
occurrence starts behind the end of the one before it. The text starts at
byte `offset`, `before` stands in front of it, and its first `skip` characters
belong to the last occurrence. -/
def Search.offsetsFrom (s : Search) (offset : Nat) (before : Option Char) (skip : Nat) :
    Text → List Nat
  | [] => []
  | c :: t =>
    match skip with
    | skip + 1 => s.offsetsFrom (offset + c.utf8Size) (some c) skip t
    | 0 =>
      if s.startsAt before (c :: t) then
        offset :: s.offsetsFrom (offset + c.utf8Size) (some c) (s.pattern.length - 1) t
      else s.offsetsFrom (offset + c.utf8Size) (some c) 0 t

/-- The byte offsets of the occurrences in a whole text. An empty pattern
occurs nowhere. -/
def Search.offsets (s : Search) (t : Text) : List Nat :=
  if s.pattern.isEmpty then [] else s.offsetsFrom 0 none 0 t

/-! ## References -/

/-- A name in angle brackets. -/
def bracket (name : Text) : Text := '<' :: name ++ ['>']

/-- Looks for a name as a whole word, or in brackets. -/
def Search.ofName (name : Text) (bracketed : Bool) : Search :=
  if bracketed then ⟨bracket name, false⟩ else ⟨name, true⟩

/-- The occurrences that one search finds. -/
def referencesOf (uri : String) (text name : Text) (bracketed : Bool) : List Reference :=
  let ix := LineIndex.ofText text
  let s := Search.ofName name bracketed
  (s.offsets text).map fun o => ⟨⟨uri, ix.rangeOf o (o + s.pattern.bytes)⟩, bracketed⟩

/-- All occurrences of a name, bare ones first. The empty name has none. A search
engine may refuse the pattern of a name that is too long, and such a name has none
either: that case is left out, no name is too long here. -/
def scanReferences (uri : String) (text name : Text) : List Reference :=
  if name.isEmpty then []
  else referencesOf uri text name false ++ referencesOf uri text name true

end AbnfServer.Rule
