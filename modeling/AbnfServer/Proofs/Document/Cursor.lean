-- The cursor and the word that it selects: which character of its line decides whether
-- there is a word, how far the word goes, and from where else it is selected.
import AbnfServer.Proofs.Document.Words
import AbnfServer.Proofs.Text.Conversion

namespace AbnfServer

open Rule

namespace Text

variable {line front back x u v y : Text} {c : Nat}

/-- The index at which a cursor stands in a line: the first one that is at least `column`
units from the start, or that of the end when the line is shorter. -/
def CursorAt (line : Text) (column c : Nat) : Prop :=
  IsLeast {i | i ≤ line.length ∧ column ≤ units (line.take i)} c ∨ line.units < column ∧ c = line.length

/-- At the index stands a name character. -/
def NameAt (t : Text) (i : Nat) : Prop := t[i]?.any isNameChar = true

/-- Which name character a cursor selects: the one behind it or, when there is none, the
one in front of it. -/
inductive Selects (line : Text) (c : Nat) : Nat → Prop
  | behind : NameAt line c → Selects line c c
  | inFront {i : Nat} : ¬ NameAt line c → c = i + 1 → NameAt line i → Selects line c i

theorem cursorAt_takeUnits (column : Nat) (line : Text) :
    CursorAt line column (takeUnits column line).length := by
  have hcut := takeUnits_append_drop column line
  rcases Nat.lt_or_ge line.units column with hlt | hge
  · exact Or.inr ⟨hlt, by rw [takeUnits_of_lt hlt]⟩
  · have htake : line.take (takeUnits column line).length = takeUnits column line :=
      (List.prefix_iff_eq_take.mp ⟨_, hcut⟩).symm
    refine Or.inl ⟨⟨?_, ?_⟩, ?_⟩
    · rw [← congrArg List.length hcut, List.length_append]
      exact Nat.le_add_right _ _
    · rw [htake]
      exact le_units_takeUnits hge
    · rintro i ⟨_, hi⟩
      obtain ⟨z, hz⟩ := exists_takeUnits_append (line.drop i) hi
      rw [List.take_append_drop] at hz
      have hlength := congrArg List.length hz
      rw [List.length_take, List.length_append] at hlength
      omega

/-! ## The characters next to a cut -/

theorem nameAt_length_iff : NameAt (front ++ back) front.length ↔ back.head?.any isNameChar = true := by
  rw [NameAt, List.getElem?_append_right (Nat.le_refl _), Nat.sub_self, List.head?_eq_getElem?]

theorem nameAt_before_length_iff :
    (∃ i, front.length = i + 1 ∧ NameAt (front ++ back) i) ↔ front.getLast?.any isNameChar = true := by
  rcases List.eq_nil_or_concat front with rfl | ⟨init, a, rfl⟩
  · simp
  · rw [List.concat_eq_append]
    simp [NameAt]

/-- Behind a cut of a word stands a name character when something of the word is there. -/
theorem nameAt_word_iff (h : Stands line x (u ++ v) y) : NameAt line (x ++ u).length ↔ v ≠ [] := by
  have hcut : line = x ++ u ++ (v ++ y) := by rw [h.cut]; simp only [List.append_assoc]
  rw [hcut, nameAt_length_iff]
  cases v with
  | nil =>
    have hright := h.right
    simp [hright]
  | cons a v => simp [h.chars a (List.mem_append_right u List.mem_cons_self)]

theorem nameAt_before_word_iff (h : Stands line x (u ++ v) y) :
    (∃ i, (x ++ u).length = i + 1 ∧ NameAt line i) ↔ u ≠ [] := by
  have hcut : line = x ++ u ++ (v ++ y) := by rw [h.cut]; simp only [List.append_assoc]
  rw [hcut, nameAt_before_length_iff]
  rcases List.eq_nil_or_concat u with rfl | ⟨init, a, rfl⟩
  · have hleft := h.left
    simp [hleft]
  · have ha := h.chars a (by simp)
    simp [ha]

/-- A cursor in a word, or at one of its ends, selects a character of it. -/
theorem exists_selects (h : Stands line x (u ++ v) y) (hne : u ++ v ≠ []) :
    ∃ i, Selects line (x ++ u).length i ∧ x.length ≤ i ∧ i < (x ++ (u ++ v)).length := by
  by_cases hv : v = []
  · have hu : u ≠ [] := by
      rintro rfl
      exact hne hv
    obtain ⟨i, hi, hname⟩ := (nameAt_before_word_iff h).mpr hu
    have hnone : ¬ NameAt line (x ++ u).length := by rw [nameAt_word_iff h]; exact not_not.mpr hv
    have hpos := List.length_pos_iff.mpr hu
    refine ⟨i, .inFront hnone hi hname, ?_, ?_⟩
    all_goals
      simp only [List.length_append] at hi ⊢
      omega
  · have hpos := List.length_pos_iff.mpr hv
    refine ⟨_, .behind ((nameAt_word_iff h).mpr hv), ?_, ?_⟩
    all_goals
      simp only [List.length_append]
      omega

end Text

namespace Document

open Text

variable {uri : String} {text line w : Text} {version : Int} {place : Position} {r : Range} {d : Document}

/-- Where the word at a position comes from: a cut of its line, in a word that has a
character on one side at least. -/
theorem exists_cut_of_wordAt? (hline : d.lineText? place.line.toNat = some line)
    (h : d.wordAt? place = some (w, r)) :
    ∃ x u v y, takeUnits place.character.toNat line = x ++ u ∧ Stands line x (u ++ v) y ∧
      u ++ v ≠ [] ∧ w = u ++ v := by
  obtain ⟨x, u, v, y, hcut, hstands⟩ := exists_word_cut place.character.toNat line
  rw [wordAt?_of_cut hline hcut hstands] at h
  split at h
  · cases h
  · next hne =>
    cases h
    exact ⟨x, u, v, y, hcut, hstands, hne, rfl⟩

/-- There is a word at a position when a name character stands behind the cursor or in
front of it. -/
theorem isSome_wordAt?_iff (hline : d.lineText? place.line.toNat = some line) :
    (d.wordAt? place).isSome = true ↔
      NameAt line (takeUnits place.character.toNat line).length ∨
        ∃ i, (takeUnits place.character.toNat line).length = i + 1 ∧ NameAt line i := by
  obtain ⟨x, u, v, y, hcut, hstands⟩ := exists_word_cut place.character.toNat line
  rw [wordAt?_of_cut hline hcut hstands, hcut, nameAt_word_iff hstands, nameAt_before_word_iff hstands]
  by_cases hne : u ++ v = []
  · obtain ⟨rfl, rfl⟩ := List.append_eq_nil_iff.mp hne
    simp
  · have hsome : v ≠ [] ∨ u ≠ [] := by
      by_contra hnone
      rw [not_or, not_not, not_not] at hnone
      exact hne (by rw [hnone.1, hnone.2]; rfl)
    simp [hne, hsome]

/-! ## The law -/

/-- Whether there is a word at a position of a line is up to the two characters next to
the cursor. The word is the longest run of name characters that has the selected one in
it, its range cuts it out of the text, and from every position in the range, the ends
included, it is found again. -/
theorem cursor_selects_the_whole_word (uri : String) {text line : Text} (version : Int) (place : Position)
    (ht : text.bytes < UInt32.size)
    (hline : (new uri text version).lineText? place.line.toNat = some line) :
    let d := new uri text version
    ∃ c, CursorAt line place.character.toNat c ∧
      ((d.wordAt? place).isSome = true ↔ NameAt line c ∨ ∃ i, c = i + 1 ∧ NameAt line i) ∧
      ∀ w r, d.wordAt? place = some (w, r) →
        (∃ x y i, Stands line x w y ∧ Selects line c i ∧ x.length ≤ i ∧ i < (x ++ w).length) ∧
        d.index.slice? text r = some w ∧
        ∀ p, r.start ≤ p → p ≤ r.stop → d.wordAt? p = some (w, r) := by
  intro d
  refine ⟨_, cursorAt_takeUnits _ line, isSome_wordAt?_iff hline, ?_⟩
  intro w r hword
  have haddr := addressable_of_bytes_lt ht
  obtain ⟨x, u, v, y, hcut, hstands, hne, rfl⟩ := exists_cut_of_wordAt? hline hword
  obtain ⟨before, after, hin, rfl⟩ := wordAt?_stands hword
  refine ⟨?_, ?_, ?_⟩
  · rw [hcut]
    obtain ⟨i, hselects, hfrom, hto⟩ := exists_selects hstands hne
    exact ⟨x, y, i, hstands, hselects, hfrom, hto⟩
  · have hslice := LineIndex.slice?_positions (hin.cut ▸ haddr)
    rwa [← hin.cut] at hslice
  · exact fun p hstart hstop => wordAt?_of_stands haddr hin hne hstart hstop

/-- A cursor in the middle of a character of two units, in front of a word. Behind the
word there are only carriage returns. -/
theorem a_word_is_selected_from_inside_the_character_before :
    let d := new "f" "x\n😀a-b\r\r".toList 1
    d.lineText? 1 = some "😀a-b".toList ∧ d.wordAt? ⟨1, 1⟩ = some ("a-b".toList, ⟨⟨1, 2⟩, ⟨1, 5⟩⟩) ∧
      (∃ c, CursorAt "😀a-b".toList 1 c ∧ ∃ x y i, Stands "😀a-b".toList x "a-b".toList y ∧
        Selects "😀a-b".toList c i ∧ x.length ≤ i ∧ i < (x ++ "a-b".toList).length) ∧
      d.index.slice? d.text ⟨⟨1, 2⟩, ⟨1, 5⟩⟩ = some "a-b".toList ∧
      d.wordAt? ⟨1, 5⟩ = some ("a-b".toList, ⟨⟨1, 2⟩, ⟨1, 5⟩⟩) := by
  have hline : (new "f" "x\n😀a-b\r\r".toList 1).lineText? 1 = some "😀a-b".toList := by decide
  have hword : (new "f" "x\n😀a-b\r\r".toList 1).wordAt? ⟨1, 1⟩ =
      some ("a-b".toList, ⟨⟨1, 2⟩, ⟨1, 5⟩⟩) := by decide
  obtain ⟨c, hcursor, _, hfound⟩ := cursor_selects_the_whole_word "f" 1 ⟨1, 1⟩ (by decide) hline
  obtain ⟨hselected, hslice, hagain⟩ := hfound _ _ hword
  exact ⟨hline, hword, ⟨c, hcursor, hselected⟩, hslice, hagain ⟨1, 5⟩ (by decide) (by decide)⟩

end Document

end AbnfServer
