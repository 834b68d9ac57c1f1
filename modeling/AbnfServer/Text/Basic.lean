-- Texts, and the two units in which they are measured: the bytes of UTF-8
-- and the units of UTF-16. Cutting by a count of either one never splits a
-- character: bytes round down and units round up.

namespace AbnfServer

/-- A text is the list of its characters. -/
abbrev Text := List Char

namespace Text

/-! ## Sizes -/

/-- The UTF-16 units of a character: two outside the first plane. -/
def charUnits (c : Char) : Nat := if c.val < 0x10000 then 1 else 2

/-- The size of a text in UTF-8 bytes. -/
def bytes : Text → Nat
  | [] => 0
  | c :: t => c.utf8Size + bytes t

/-- The size of a text in UTF-16 units. -/
def units : Text → Nat
  | [] => 0
  | c :: t => charUnits c + units t

/-! ## Cutting -/

/-- The longest start of a text that fits into `n` bytes. -/
def takeBytes : Nat → Text → Text
  | _, [] => []
  | n, c :: t => if c.utf8Size ≤ n then c :: takeBytes (n - c.utf8Size) t else []

/-- What follows the longest start of a text that fits into `n` bytes. -/
def dropBytes : Nat → Text → Text
  | _, [] => []
  | n, c :: t => if c.utf8Size ≤ n then dropBytes (n - c.utf8Size) t else c :: t

/-- The characters between two byte offsets. -/
def between (start stop : Nat) (t : Text) : Text := takeBytes (stop - start) (dropBytes start t)

/-- The shortest start of a text with at least `n` units, or the whole text
when it has fewer. -/
def takeUnits : Nat → Text → Text
  | _, [] => []
  | 0, _ => []
  | n + 1, c :: t => c :: takeUnits (n + 1 - charUnits c) t

/-! ## Lines -/

/-- The lines of a text, without the newlines that end them. There is one
line more than there are newlines. -/
def lines : Text → List Text
  | [] => [[]]
  | c :: t =>
    if c = '\n' then [] :: lines t
    else match lines t with
      | [] => [[c]]
      | l :: ls => (c :: l) :: ls

/-- Lines joined by newlines. -/
def joinLines : List Text → Text
  | [] => []
  | [l] => l
  | l :: m :: ls => l ++ '\n' :: joinLines (m :: ls)

/-- The size of lines in bytes, each with the newline that ends it. -/
def bytesOfLines : List Text → Nat
  | [] => 0
  | l :: ls => bytes l + 1 + bytesOfLines ls

/-! ## Order -/

/-- Texts are ordered like words in a dictionary, by the code points. -/
def le : Text → Text → Bool
  | [], _ => true
  | _ :: _, [] => false
  | a :: s, b :: t => a.toNat < b.toNat || (a == b && le s t)

/-! ## Laws -/

theorem takeBytes_append_dropBytes (n : Nat) (t : Text) : takeBytes n t ++ dropBytes n t = t := by
  induction t generalizing n with
  | nil => rfl
  | cons c t ih => by_cases h : c.utf8Size ≤ n <;> simp [takeBytes, dropBytes, h, ih]

theorem bytes_append (s t : Text) : bytes (s ++ t) = bytes s + bytes t := by
  induction s with
  | nil => simp [bytes]
  | cons c s ih => simp [bytes, ih, Nat.add_assoc]

theorem units_append (s t : Text) : units (s ++ t) = units s + units t := by
  induction s with
  | nil => simp [units]
  | cons c s ih => simp [units, ih, Nat.add_assoc]

theorem lines_ne_nil (t : Text) : lines t ≠ [] := by
  cases t with
  | nil => simp [lines]
  | cons c t =>
    unfold lines
    split
    · simp
    · split <;> simp

/-- Joining undoes the cut into lines. -/
theorem joinLines_lines (t : Text) : joinLines (lines t) = t := by
  induction t with
  | nil => rfl
  | cons c t ih =>
    unfold lines
    split
    · next h =>
      cases hl : lines t with
      | nil => exact absurd hl (lines_ne_nil t)
      | cons l ls => rw [hl] at ih; simp [joinLines, ih, h]
    · cases hl : lines t with
      | nil => exact absurd hl (lines_ne_nil t)
      | cons l ls =>
        rw [hl] at ih
        cases ls with
        | nil => simp [joinLines] at ih ⊢; exact ih
        | cons m ls => simp [joinLines] at ih ⊢; exact ih

end Text

end AbnfServer
