-- The word at a position: wherever the position lies, the word found there is a
-- longest run of name characters in the text, and the range is that of the run. From
-- every position in the range, its two ends included, the same word is found.
import AbnfServer.Proofs.Rule.Definitions
import AbnfServer.Document.Basic

namespace AbnfServer

open Text

variable {l t w x y p s : Text} {n : Nat}

/-- A word as it stands in a text: a run of name characters that goes on in neither
direction. -/
structure Rule.Stands (t before word after : Text) : Prop where
  cut : t = before ++ word ++ after
  chars : ∀ c ∈ word, Rule.isNameChar c = true
  left : before.getLast?.any Rule.isNameChar = false
  right : after.head?.any Rule.isNameChar = false

namespace Rule

theorem any_or {f : Char → Bool} {a b : Option Char} (ha : a.any f = false) (hb : b.any f = false) :
    (a.or b).any f = false := by
  cases a with
  | none => exact hb
  | some c => exact ha

theorem any_of_or {f : Char → Bool} {a b : Option Char} (h : (a.or b).any f = false) : a.any f = false := by
  cases a with
  | none => rfl
  | some c => exact h

theorem any_isNameChar_of_newline {o : Option Char} (h : ∀ c ∈ o, c = '\n') :
    o.any isNameChar = false := by
  cases o with
  | none => rfl
  | some c =>
    rw [h c rfl]
    rfl

theorem any_head?_carriage_returns {e : Text} (he : e.all (· = '\r') = true) :
    e.head?.any isNameChar = false := by
  cases e with
  | nil => rfl
  | cons c e =>
    have hc : c = '\r' := by simpa using List.all_eq_true.mp he c List.mem_cons_self
    rw [hc]
    rfl

/-! ## Columns in a word -/

/-- Name characters take one column each. -/
theorem charUnits_of_isNameChar {c : Char} (h : isNameChar c = true) : charUnits c = 1 := by
  have hsmall : c.toNat ≤ 'z'.toNat := by
    rw [isNameChar, Bool.or_eq_true, isAlphanum_iff_range, beq_iff_eq] at h
    rcases h with ((⟨_, h⟩ | ⟨_, h⟩) | ⟨_, h⟩) | rfl
    · exact Nat.le_trans h (by decide)
    · exact h
    · exact Nat.le_trans h (by decide)
    · decide
  have hz : 'z'.toNat = 122 := rfl
  refine if_pos (UInt32.lt_iff_toNat_lt.mpr ?_)
  exact Nat.lt_of_le_of_lt hsmall (by decide)

theorem units_of_isNameChar (h : ∀ c ∈ w, isNameChar c = true) : w.units = w.length := by
  induction w with
  | nil => rfl
  | cons c w ih =>
    rw [units, charUnits_of_isNameChar (h c List.mem_cons_self),
      ih fun d hd => h d (List.mem_cons_of_mem c hd), List.length_cons, Nat.add_comm]

/-- Every column of a word lies between two of its characters, or at one of its ends. -/
theorem exists_takeUnits_word (h : ∀ c ∈ w, isNameChar c = true) (hstart : x.units ≤ n)
    (hstop : n ≤ (x ++ w).units) (y : Text) :
    ∃ u v, w = u ++ v ∧ takeUnits n (x ++ w ++ y) = x ++ u := by
  refine ⟨w.take (n - x.units), w.drop (n - x.units), (List.take_append_drop _ w).symm, ?_⟩
  have hfront : (x ++ w.take (n - x.units)).units = n := by
    rw [units_append, units_of_isNameChar h] at hstop
    rw [units_append, units_of_isNameChar fun c hc => h c (List.mem_of_mem_take hc), List.length_take]
    omega
  have hcut : x ++ w ++ y = x ++ w.take (n - x.units) ++ (w.drop (n - x.units) ++ y) := by
    rw [List.append_assoc, List.append_assoc, ← List.append_assoc (w.take _), List.take_append_drop]
  have htake := takeUnits_units (x ++ w.take (n - x.units)) (w.drop (n - x.units) ++ y)
  rwa [hfront, ← hcut] at htake

/-! ## Words of a line -/

/-- The carriage returns at the end of a line go on with no word. -/
theorem Stands.with_line_end (h : Stands (dropEndWhile (· = '\r') l) x w y) : ∃ z, Stands l x w z := by
  obtain ⟨e, hl, he⟩ := exists_all_dropEndWhile (· = '\r') l
  refine ⟨y ++ e, ?_, h.chars, h.left, ?_⟩
  · rw [hl, h.cut]
    simp only [List.append_assoc]
  · rw [List.head?_append]
    exact any_or h.right (any_head?_carriage_returns he)

theorem Stands.without_line_end (h : Stands l x w y) (hw : w ≠ []) :
    ∃ z, Stands (dropEndWhile (· = '\r') l) x w z := by
  obtain ⟨e, hy, _⟩ := exists_all_dropEndWhile (· = '\r') y
  have hlast : (x ++ w).getLast?.any (· = '\r') = false := by
    have hlast := List.getLast?_eq_some_getLast hw
    have hname := h.chars _ (List.getLast_mem hw)
    rw [List.getLast?_append, hlast, Option.some_or, Option.any_some, decide_eq_false_iff_not]
    intro hr
    rw [hr] at hname
    cases hname
  refine ⟨dropEndWhile (· = '\r') y, ?_, h.chars, h.left, ?_⟩
  · rw [h.cut, dropEndWhile_append hlast]
  · have hright := h.right
    rw [hy, List.head?_append] at hright
    exact any_of_or hright

/-- A word of a line is a word of the text: a newline goes on with none. -/
theorem stands_of_line (hl : t.lines[n]? = some l) (hw : Stands l x w y) :
    ∃ before after, Stands t before w after ∧ before.position = .ofNat n x.units ∧
      (before ++ w).position = .ofNat n (x ++ w).units := by
  have hnewline : '\n' ∉ x ++ w := fun hin =>
    not_mem_of_mem_lines (List.mem_of_getElem? hl) (by rw [hw.cut]; exact List.mem_append_left y hin)
  have hstart : '\n' ∉ x := fun hin => hnewline (List.mem_append_left w hin)
  obtain ⟨q, s, hat⟩ := exists_lineAt hl
  refine ⟨q ++ x, y ++ s, ⟨?_, hw.chars, ?_, ?_⟩, hat.position hstart, ?_⟩
  · rw [hat.cut, hw.cut]
    simp only [List.append_assoc]
  · rw [List.getLast?_append]
    exact any_or hw.left (any_isNameChar_of_newline hat.left)
  · rw [List.head?_append]
    exact any_or hw.right (any_isNameChar_of_newline hat.right)
  · rw [List.append_assoc]
    exact hat.position hnewline

/-- A word of the text is a word of one of its lines. -/
theorem Stands.exists_line {before after : Text} (h : Stands t before w after) :
    ∃ n l x y, t.lines[n]? = some l ∧ Stands l x w y ∧ before.position = .ofNat n x.units ∧
      (before ++ w).position = .ofNat n (x ++ w).units := by
  have hw : '\n' ∉ w := fun hin => by cases h.chars _ hin
  obtain ⟨q, x, y, s, rfl, rfl, hat⟩ := exists_lineAt_of_part hw before after
  rw [← h.cut] at hat
  have hstop : '\n' ∉ x ++ w := fun hin => hat.inner (List.mem_append_left y hin)
  have hstart : '\n' ∉ x := fun hin => hstop (List.mem_append_left w hin)
  refine ⟨_, _, x, y, hat.getElem?, ⟨rfl, h.chars, ?_, ?_⟩, hat.position hstart, ?_⟩
  · have hleft := h.left
    rw [List.getLast?_append] at hleft
    exact any_of_or hleft
  · have hright := h.right
    rw [List.head?_append] at hright
    exact any_of_or hright
  · rw [List.append_assoc]
    exact hat.position hstop

end Rule

namespace Document

open Rule

variable {uri : String} {version : Int} {place : Position} {r : Range} {d : Document}
  {u v line before after : Text}

/-- The run around a cut, told by where it starts and ends. -/
theorem runAround_eq_iff : runAround before after = (u, v) ↔
    ∃ x y, before = x ++ u ∧ after = v ++ y ∧ Stands (before ++ after) x (u ++ v) y := by
  rw [runAround, Prod.mk.injEq]
  constructor
  · rintro ⟨rfl, rfl⟩
    have hbefore : before = dropEndWhile isNameChar before ++ (before.reverse.takeWhile isNameChar).reverse := by
      rw [dropEndWhile, ← List.reverse_append, List.takeWhile_append_dropWhile, List.reverse_reverse]
    have hafter : after = after.takeWhile isNameChar ++ after.dropWhile isNameChar :=
      List.takeWhile_append_dropWhile.symm
    refine ⟨_, _, hbefore, hafter, ?_, ?_, any_getLast?_dropEndWhile isNameChar before,
      any_head?_dropWhile isNameChar after⟩
    · rw [← List.append_assoc, ← hbefore, List.append_assoc, ← hafter]
    · intro c hc
      rcases List.mem_append.mp hc with hc | hc
      · exact List.all_eq_true.mp List.all_takeWhile c (List.mem_reverse.mp hc)
      · exact List.all_eq_true.mp List.all_takeWhile c hc
  · rintro ⟨x, y, rfl, rfl, _, hchars, hleft, hright⟩
    have hu : u.reverse.all isNameChar = true :=
      List.all_eq_true.mpr fun c hc => hchars c (List.mem_append_left v (List.mem_reverse.mp hc))
    have hv : v.all isNameChar = true :=
      List.all_eq_true.mpr fun c hc => hchars c (List.mem_append_right u hc)
    rw [← List.head?_reverse] at hleft
    rw [List.reverse_append, (takeWhile_append_stop hu hleft).1, (takeWhile_append_stop hv hright).1,
      List.reverse_reverse]
    exact ⟨rfl, rfl⟩

/-- A column cuts its line in a word, or where there is none in the empty one. -/
theorem exists_word_cut (column : Nat) (line : Text) :
    ∃ x u v y, takeUnits column line = x ++ u ∧ Stands line x (u ++ v) y := by
  obtain ⟨x, y, hfront, _, hstands⟩ := runAround_eq_iff.mp
    (rfl : runAround (takeUnits column line) (line.drop (takeUnits column line).length) = _)
  rw [takeUnits_append_drop] at hstands
  exact ⟨x, _, _, y, hfront, hstands⟩

/-- The word at a position is the one that its column cuts. -/
theorem wordAt?_of_cut (hline : d.lineText? place.line.toNat = some line)
    (hfront : takeUnits place.character.toNat line = x ++ u) (h : Stands line x (u ++ v) y) :
    d.wordAt? place = if u ++ v = [] then none else
      some (u ++ v, ⟨.ofNat place.line.toNat x.units, .ofNat place.line.toNat (x ++ (u ++ v)).units⟩) := by
  have hcut := takeUnits_append_drop place.character.toNat line
  have hback := h.cut
  rw [← hcut, hfront] at hback
  simp only [List.append_assoc, List.append_cancel_left_eq] at hback
  have hrun : runAround (x ++ u) (v ++ y) = (u, v) := by
    refine runAround_eq_iff.mpr ⟨x, y, rfl, rfl, ?_⟩
    rwa [← hback, ← hfront, hcut]
  unfold wordAt?
  simp only [hline, hfront, hback, hrun, Option.bind_eq_bind, Option.bind_some]
  split
  · rfl
  · simp [Position.ofNat, units_append, Nat.add_assoc]

/-- The word at a position stands in the text, in the range that is given with it. -/
theorem wordAt?_stands (h : (new uri t version).wordAt? place = some (w, r)) :
    ∃ before after, Stands t before w after ∧ r = ⟨before.position, (before ++ w).position⟩ := by
  obtain ⟨line, hline⟩ : ∃ line, (new uri t version).lineText? place.line.toNat = some line := by
    obtain ⟨line, hline, _⟩ := Option.bind_eq_some_iff.mp h
    exact ⟨line, hline⟩
  obtain ⟨x, u, v, y, hcut, hstands⟩ := exists_word_cut place.character.toNat line
  rw [wordAt?_of_cut hline hcut hstands] at h
  split at h
  · cases h
  cases h
  obtain ⟨l, hl, rfl⟩ := Option.map_eq_some_iff.mp hline
  have hl : t.lines[place.line.toNat]? = some l := hl
  obtain ⟨z, hstands⟩ := hstands.with_line_end
  obtain ⟨before, after, hword, hstart, hstop⟩ := stands_of_line hl hstands
  exact ⟨before, after, hword, by rw [hstart, hstop]⟩

/-- From every position in a word of the text, or at an end of it, the word is found. -/
theorem wordAt?_of_stands (ht : t.Addressable) (h : Stands t before w after) (hw : w ≠ [])
    (hstart : before.position ≤ place) (hstop : place ≤ (before ++ w).position) :
    (new uri t version).wordAt? place = some (w, ⟨before.position, (before ++ w).position⟩) := by
  obtain ⟨n, l, x, y, hl, hstands, hbefore, hword⟩ := h.exists_line
  have hn : (UInt32.ofNat n).toNat = n := ht.toNat_line (List.getElem?_eq_some_iff.mp hl).1
  have hx : (UInt32.ofNat x.units).toNat = x.units :=
    ht.toNat_column (List.mem_of_getElem? hl) (by rw [hstands.cut, List.append_assoc]; exact List.prefix_append x _)
  have hxw : (UInt32.ofNat (x ++ w).units).toNat = (x ++ w).units :=
    ht.toNat_column (List.mem_of_getElem? hl) (by rw [hstands.cut]; exact List.prefix_append (x ++ w) y)
  rw [hbefore] at hstart ⊢
  rw [hword] at hstop ⊢
  have hcol := place.character.toNat_lt
  have hlast := (UInt32.ofNat (x ++ w).units).toNat_lt
  rw [hxw] at hlast
  simp only [Position.le_def, Position.rank, Position.ofNat, hn, hx, hxw] at hstart hstop
  have hline : place.line.toNat = n := by omega
  have hfrom : x.units ≤ place.character.toNat := by omega
  have hto : place.character.toNat ≤ (x ++ w).units := by omega
  -- a document looks the word up in its line without the carriage returns at the end
  obtain ⟨z, hstands⟩ := hstands.without_line_end hw
  obtain ⟨u, v, huv, hcut⟩ := exists_takeUnits_word hstands.chars hfrom hto z
  have htext : (new uri t version).lineText? place.line.toNat = some (dropEndWhile (· = '\r') l) := by
    rw [hline]
    exact congrArg (Option.map _) hl
  rw [← hstands.cut] at hcut
  subst huv
  rw [wordAt?_of_cut htext hcut hstands, if_neg hw, hline]

end Document

end AbnfServer
