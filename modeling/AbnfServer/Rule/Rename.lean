-- Renaming a rule: why a rename may be refused, and which edits it takes.
-- The edits never touch each other, so they can be applied as one batch.
import AbnfServer.Message.Catalog
import AbnfServer.Rule.Reference
import AbnfServer.Text.Edit

namespace AbnfServer.Rule

/-! ## Refusals -/

/-- Why a rename is refused. -/
inductive RenameError
  /-- The new name is no rule name. -/
  | invalidName (name : Text)
  /-- The document defines no rule of the old name. -/
  | undefinedRule (name : Text)
deriving DecidableEq, Repr

/-- What the user is told about a refusal. -/
def RenameError.message (c : Catalog) : RenameError → Text
  | .invalidName _ => c.invalidRuleName.toList
  | .undefinedRule name => c.notDefined name

/-! ## The plan -/

/-- Goes through the candidates and takes each one that touches none of those
taken before. -/
def selectFrom (taken : List Range) : List Range → List Range
  | [] => []
  | r :: rs =>
    if taken.any r.touches then selectFrom taken rs else r :: selectFrom (r :: taken) rs

/-- The ranges to edit: of two that touch, the one that starts first. -/
def select (ranges : List Range) : List Range :=
  selectFrom [] (ranges.mergeSort fun a b => a.start ≤ b.start)

/-- Whether a text stands in angle brackets. -/
def isBracketed (t : Text) : Bool := t.head? == some '<' && t.getLast? == some '>'

/-- What takes the place of a range: the new name, in brackets when the text
has brackets there. -/
def replacement (ix : LineIndex) (text newName : Text) (r : Range) : Text :=
  if (ix.slice? text r).any isBracketed then bracket newName else newName

/-- The edits that put a new name in the place of the references. -/
def planEdits (text : Text) (references : List Reference) (newName : Text) : List Edit :=
  let ix := LineIndex.ofText text
  (select (references.map fun r => r.location.range)).map fun r =>
    ⟨r, replacement ix text newName r⟩

end AbnfServer.Rule
