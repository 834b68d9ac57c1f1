-- Replacements in a text, all of them given against the text as it was.
-- A batch is applied from left to right; what starts before the end of the
-- one applied last is left out.
import AbnfServer.Text.LineIndex

namespace AbnfServer

/-- Puts a new text in the place of a range. -/
structure Edit where
  range : Range
  newText : Text
deriving DecidableEq, Repr

/-- An edit whose ends are byte offsets. -/
structure Splice where
  start : Nat
  stop : Nat
  newText : Text
deriving DecidableEq, Repr

namespace LineIndex

/-- The byte offsets of an edit, when both its lines are there. -/
def resolve? (ix : LineIndex) (e : Edit) : Option Splice := do
  let (start, stop) ← ix.spanOf? e.range
  return ⟨start, stop, e.newText⟩

/-- The edits that can be resolved, by where they start. -/
def splices (ix : LineIndex) (edits : List Edit) : List Splice :=
  (edits.filterMap ix.resolve?).mergeSort fun a b => a.start ≤ b.start

end LineIndex

namespace Text

/-- The text from byte `cursor` on, with each splice put in. A splice that
starts before the cursor is left out; behind one, the cursor is at its end. -/
def spliceFrom (t : Text) (cursor : Nat) : List Splice → Text
  | [] => dropBytes cursor t
  | s :: ss =>
    if s.start < cursor then spliceFrom t cursor ss
    else between cursor s.start t ++ s.newText ++ spliceFrom t s.stop ss

/-- Applies a batch of edits. -/
def applyEdits (t : Text) (edits : List Edit) : Text :=
  t.spliceFrom 0 ((LineIndex.ofText t).splices edits)

/-- No edit leaves the text as it is. -/
theorem applyEdits_nil (t : Text) : t.applyEdits [] = t := by
  have h : dropBytes 0 t = t := by
    cases t with
    | nil => rfl
    | cons c t => simp [dropBytes, Nat.not_le.mpr c.utf8Size_pos]
  simp [applyEdits, LineIndex.splices, spliceFrom, h]

end Text

end AbnfServer
