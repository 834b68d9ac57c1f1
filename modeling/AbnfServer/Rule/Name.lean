-- Rule names: a letter, then letters, digits and hyphens, all of ASCII.
import AbnfServer.Text.Basic

namespace AbnfServer.Rule

/-- The characters that may stand in a rule name. -/
def isNameChar (c : Char) : Bool := c.isAlphanum || c == '-'

/-- A rule name starts with a letter and goes on with name characters. -/
def isName : Text → Bool
  | [] => false
  | c :: t => c.isAlpha && t.all isNameChar

theorem isAlpha_iff_range (c : Char) :
    c.isAlpha = true ↔ ('A' ≤ c ∧ c ≤ 'Z') ∨ ('a' ≤ c ∧ c ≤ 'z') := by
  have hupper : c.isUpper = true ↔ 'A' ≤ c ∧ c ≤ 'Z' := decide_eq_true_iff
  have hlower : c.isLower = true ↔ 'a' ≤ c ∧ c ≤ 'z' :=
    Bool.and_eq_true_iff.trans (and_congr decide_eq_true_iff decide_eq_true_iff)
  exact Bool.or_eq_true_iff.trans (or_congr hupper hlower)

theorem isAlphanum_iff_range (c : Char) :
    c.isAlphanum = true ↔ (('A' ≤ c ∧ c ≤ 'Z') ∨ ('a' ≤ c ∧ c ≤ 'z')) ∨ ('0' ≤ c ∧ c ≤ '9') := by
  have hdigit : c.isDigit = true ↔ '0' ≤ c ∧ c ≤ '9' :=
    Bool.and_eq_true_iff.trans (and_congr decide_eq_true_iff decide_eq_true_iff)
  exact Bool.or_eq_true_iff.trans (or_congr (isAlpha_iff_range c) hdigit)

/-- A letter is a name character. -/
theorem isNameChar_of_isAlpha {c : Char} (h : c.isAlpha = true) : isNameChar c = true := by
  simp [isNameChar, Char.isAlphanum, h]

variable {name : Text}

theorem ne_nil_of_isName (hname : isName name = true) : name ≠ [] := by
  rintro rfl
  cases hname

theorem isNameChar_of_mem (h : isName name = true) {c : Char} (hc : c ∈ name) : isNameChar c = true := by
  cases name with
  | nil => cases hc
  | cons d w =>
    rw [isName, Bool.and_eq_true, List.all_eq_true] at h
    rcases List.mem_cons.mp hc with rfl | hc
    · exact isNameChar_of_isAlpha h.1
    · exact h.2 c hc

theorem exists_head_of_isName (h : isName name = true) : ∃ c w, name = c :: w ∧ c.isAlpha = true := by
  cases name with
  | nil => cases h
  | cons c w =>
    rw [isName, Bool.and_eq_true] at h
    exact ⟨c, w, rfl, h.1⟩

theorem isName_iff_head :
    isName name = true ↔ name.head?.any Char.isAlpha = true ∧ ∀ c ∈ name, isNameChar c = true := by
  constructor
  · intro h
    obtain ⟨c, w, hcw, hc⟩ := exists_head_of_isName h
    exact ⟨by rw [hcw]; exact hc, fun c hc => isNameChar_of_mem h hc⟩
  · intro ⟨hhead, hall⟩
    cases name with
    | nil => cases hhead
    | cons c w =>
      rw [isName, Bool.and_eq_true, List.all_eq_true]
      exact ⟨hhead, fun d hd => hall d (List.mem_cons_of_mem _ hd)⟩

end AbnfServer.Rule
