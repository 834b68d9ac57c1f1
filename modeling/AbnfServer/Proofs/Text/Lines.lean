-- A text in parts: the lines that it is cut into and joined from, where a line stands
-- in it, and what is left of it without the blanks at its ends.
import AbnfServer.Proofs.Text.Places
import AbnfServer.Text.Blank

namespace AbnfServer.Text

variable {l t x e w m : Text} {ls : List Text} {p : Char → Bool}

/-! ## Lines -/

theorem not_mem_of_mem_lines (h : l ∈ t.lines) : '\n' ∉ l := by
  induction t generalizing l with
  | nil =>
    rw [lines, List.mem_singleton] at h
    simp [h]
  | cons c t ih =>
    by_cases hc : c = '\n'
    · rw [hc, lines_newline, List.mem_cons] at h
      rcases h with rfl | h
      · simp
      · exact ih h
    · obtain ⟨k, ks, hk, hck⟩ := lines_cons hc t
      rw [hk] at ih
      rw [hck, List.mem_cons] at h
      rcases h with rfl | h
      · rw [List.mem_cons, not_or]
        exact ⟨Ne.symm hc, ih List.mem_cons_self⟩
      · exact ih (List.mem_cons_of_mem _ h)

/-- Cutting undoes the joining of lines. -/
theorem lines_joinLines (hne : ls ≠ []) (h : ∀ l ∈ ls, '\n' ∉ l) : (joinLines ls).lines = ls := by
  induction ls with
  | nil => exact absurd rfl hne
  | cons l ls ih =>
    have hl := h l List.mem_cons_self
    cases ls with
    | nil => exact lines_of_not_mem hl
    | cons m ls =>
      rw [joinLines, lines_append_newline hl,
        ih (List.cons_ne_nil m ls) fun k hk => h k (List.mem_cons_of_mem _ hk)]

/-! ## Lines in their text -/

theorem place_fst (t : Text) : (place t).1 = t.count '\n' := by
  induction t with
  | nil => rfl
  | cons c t ih =>
    rw [place, List.count_cons, ← ih]
    by_cases hc : c = '\n' <;> by_cases ht : (place t).1 = 0
    all_goals simp [hc, ht]

theorem place_of_not_mem (h : '\n' ∉ l) : place l = (0, l.units) := by
  induction l with
  | nil => rfl
  | cons c l ih =>
    rw [List.mem_cons, not_or] at h
    rw [place, if_neg (Ne.symm h.1), ih h.2, if_pos rfl, units]

theorem eq_nil_of_getLast? (hlast : ∀ c ∈ t.getLast?, c = '\n') (h : '\n' ∉ t) : t = [] := by
  rw [← List.getLast?_eq_none_iff]
  cases hc : t.getLast? with
  | none => rfl
  | some c =>
    rw [hlast c hc] at hc
    exact absurd (List.mem_of_getLast? hc) h

/-- Line `n` as it stands in a text: behind `n` newlines, and from one end of a line
to the next. -/
structure LineAt (t : Text) (n : Nat) (before line after : Text) : Prop where
  cut : t = before ++ line ++ after
  inner : '\n' ∉ line
  left : ∀ c ∈ before.getLast?, c = '\n'
  right : ∀ c ∈ after.head?, c = '\n'
  number : before.count '\n' = n

/-- A line goes on to be a line, one number up, when a line is put in front of the text. -/
theorem LineAt.behind {n : Nat} {b a k : Text} (h : LineAt t n b l a) (hk : '\n' ∉ k) :
    LineAt (k ++ '\n' :: t) (n + 1) (k ++ '\n' :: b) l a where
  cut := by simp [h.cut]
  inner := h.inner
  left := by
    cases b with
    | nil => simp
    | cons c b => simpa [List.getLast?_append] using h.left
  right := h.right
  number := by
    rw [List.count_append, List.count_cons_self, List.count_eq_zero_of_not_mem hk, h.number, Nat.zero_add]

theorem exists_lineAt {n : Nat} (h : t.lines[n]? = some l) : ∃ before after, LineAt t n before l after := by
  have hl := not_mem_of_mem_lines (List.mem_of_getElem? h)
  induction n generalizing t with
  | zero =>
    rcases newline_cases t with ht | ⟨k, u, hk, rfl⟩
    · rw [lines_of_not_mem ht, List.getElem?_cons_zero, Option.some.injEq] at h
      exact ⟨[], [], by simp [h], hl, by simp, by simp, rfl⟩
    · rw [lines_append_newline hk, List.getElem?_cons_zero, Option.some.injEq] at h
      exact ⟨[], '\n' :: u, by simp [h], hl, by simp, by simp, rfl⟩
  | succ n ih =>
    rcases newline_cases t with ht | ⟨k, u, hk, rfl⟩
    · rw [lines_of_not_mem ht, List.getElem?_cons_succ] at h
      cases h
    · rw [lines_append_newline hk, List.getElem?_cons_succ] at h
      obtain ⟨p, s, hat⟩ := ih h
      exact ⟨_, s, hat.behind hk⟩

namespace LineAt

variable {n : Nat} {before after p : Text}

/-- A line starts at column zero. -/
theorem place (h : LineAt t n before l after) : before.place = (n, 0) := by
  have hfst := place_fst before
  rw [h.number] at hfst
  refine Prod.ext hfst ?_
  cases hlast : before.getLast? with
  | none => rw [List.getLast?_eq_none_iff.mp hlast]; rfl
  | some c =>
    obtain ⟨q, rfl⟩ := List.getLast?_eq_some_iff.mp hlast
    have hc : c = '\n' := h.left c hlast
    rw [hc, place_append]
    rfl

/-- Where a start of the line ends. -/
theorem position (h : LineAt t n before l after) (hp : '\n' ∉ p) :
    (before ++ p).position = .ofNat n p.units := by
  rw [Text.position, place_append, place_of_not_mem hp, h.place, if_pos rfl, Nat.zero_add]

theorem getElem? (h : LineAt t n before l after) : t.lines[n]? = some l := by
  induction n generalizing t before with
  | zero =>
    have hbefore := eq_nil_of_getLast? h.left (List.count_eq_zero.mp h.number)
    rw [h.cut, hbefore, List.nil_append]
    cases after with
    | nil => rw [List.append_nil, lines_of_not_mem h.inner, List.getElem?_cons_zero]
    | cons c after =>
      have hc : c = '\n' := h.right c rfl
      rw [hc, lines_append_newline h.inner, List.getElem?_cons_zero]
  | succ n ih =>
    rcases newline_cases before with hnone | ⟨k, b, hk, rfl⟩
    · have hnumber := h.number
      rw [List.count_eq_zero_of_not_mem hnone] at hnumber
      cases hnumber
    · have hrest : LineAt (b ++ l ++ after) n b l after := by
        refine ⟨rfl, h.inner, ?_, h.right, ?_⟩
        · intro c hc
          apply h.left
          rw [List.getLast?_append, List.getLast?_cons, Option.mem_def.mp hc]
          rfl
        · have hnumber := h.number
          rw [List.count_append, List.count_cons_self, List.count_eq_zero_of_not_mem hk] at hnumber
          omega
      rw [h.cut, List.append_assoc, List.append_assoc, List.cons_append, lines_append_newline hk,
        List.getElem?_cons_succ, ← List.append_assoc]
      exact ih hrest

end LineAt

/-! ## The ends of a text -/

theorem any_head?_dropWhile (p : Char → Bool) (t : Text) : (t.dropWhile p).head?.any p = false := by
  induction t with
  | nil => rfl
  | cons c t ih =>
    by_cases hc : p c = true
    · rw [List.dropWhile_cons_of_pos hc]
      exact ih
    · rw [List.dropWhile_cons_of_neg hc]
      simpa using hc

theorem dropWhile_of_any_head? (h : t.head?.any p = false) : t.dropWhile p = t := by
  cases t with
  | nil => rfl
  | cons c t =>
    have hc : p c = false := h
    simp [hc]

theorem takeWhile_append_stop {y : Text} (hx : x.all p = true) (hy : y.head?.any p = false) :
    (x ++ y).takeWhile p = x ∧ (x ++ y).dropWhile p = y := by
  rw [List.all_eq_true] at hx
  rw [List.takeWhile_append_of_pos hx, List.dropWhile_append_of_pos hx]
  cases y with
  | nil => simp
  | cons c y =>
    have hc : p c = false := hy
    simp [hc]

/-- Dropping from the end stops in front of what stays. -/
theorem dropEndWhile_append (hx : x.getLast?.any p = false) (y : Text) :
    dropEndWhile p (x ++ y) = x ++ dropEndWhile p y := by
  have hstay : x.reverse.dropWhile p = x.reverse := by
    apply dropWhile_of_any_head?
    rw [List.head?_reverse]
    exact hx
  unfold dropEndWhile
  rw [List.reverse_append, List.dropWhile_append]
  split
  · next h =>
    rw [List.isEmpty_iff] at h
    simp [h, hstay]
  · simp

/-- Trimming the end stops at what is not blank. -/
theorem dropEndWhile_append_cons (x y : Text) {c : Char} (hc : p c = false) :
    ∃ z, dropEndWhile p (x ++ c :: y) = x ++ c :: z := by
  unfold dropEndWhile
  rw [List.reverse_append, List.reverse_cons, List.append_assoc, List.dropWhile_append]
  split
  · exact ⟨[], by simp [hc]⟩
  · exact ⟨(y.reverse.dropWhile p).reverse, by simp⟩

theorem dropEndWhile_append_of_all (he : e.all p = true) (x : Text) :
    dropEndWhile p (x ++ e) = dropEndWhile p x := by
  rw [← List.all_reverse, List.all_eq_true] at he
  unfold dropEndWhile
  rw [List.reverse_append, List.dropWhile_append_of_pos he]

theorem any_getLast?_dropEndWhile (p : Char → Bool) (t : Text) :
    (dropEndWhile p t).getLast?.any p = false := by
  rw [dropEndWhile, List.getLast?_reverse]
  exact any_head?_dropWhile p t.reverse

/-- What is dropped from the end is all of the kind to drop. -/
theorem exists_all_dropEndWhile (p : Char → Bool) (t : Text) :
    ∃ e, t = dropEndWhile p t ++ e ∧ e.all p = true := by
  refine ⟨(t.reverse.takeWhile p).reverse, ?_, ?_⟩
  · rw [dropEndWhile, ← List.reverse_append, List.takeWhile_append_dropWhile, List.reverse_reverse]
  · rw [List.all_reverse]
    exact List.all_takeWhile

/-! ## The line of a part -/

/-- A part without newlines stands in one line. -/
theorem exists_lineAt_of_part (hm : '\n' ∉ m) (a b : Text) :
    ∃ q x y s, a = q ++ x ∧ b = y ++ s ∧ LineAt (a ++ m ++ b) (a.count '\n') q (x ++ m ++ y) s := by
  obtain ⟨x, ha, hx⟩ := exists_all_dropEndWhile (· ≠ '\n') a
  have hlast := any_getLast?_dropEndWhile (· ≠ '\n') a
  generalize dropEndWhile (· ≠ '\n') a = q at ha hlast
  have hb := (List.takeWhile_append_dropWhile (p := (· ≠ '\n')) (l := b)).symm
  have hy := List.all_takeWhile (p := (· ≠ '\n')) (l := b)
  have hhead := any_head?_dropWhile (· ≠ '\n') b
  generalize b.takeWhile (· ≠ '\n') = y at hb hy
  generalize b.dropWhile (· ≠ '\n') = s at hb hhead
  have hnone {z : Text} (hz : z.all (· ≠ '\n') = true) : '\n' ∉ z := fun hin => by
    simpa using List.all_eq_true.mp hz '\n' hin
  have hend {o : Option Char} (ho : o.any (· ≠ '\n') = false) : ∀ c ∈ o, c = '\n' := by
    rintro c rfl
    simpa using ho
  refine ⟨q, x, y, s, ha, hb, ?_, ?_, hend hlast, hend hhead, ?_⟩
  · rw [ha, hb]
    simp only [List.append_assoc]
  · rw [List.mem_append, List.mem_append, not_or, not_or]
    exact ⟨⟨hnone hx, hm⟩, hnone hy⟩
  · rw [ha, List.count_append, List.count_eq_zero_of_not_mem (hnone hx), Nat.add_zero]

/-! ## Trimming -/

/-- A text with no blank at either end. -/
structure Trimmed (t : Text) : Prop where
  head : t.head?.any isBlank = false
  last : t.getLast?.any isBlank = false

theorem trimmed_trim (t : Text) : Trimmed t.trim where
  head := by
    obtain ⟨e, he, _⟩ := exists_all_dropEndWhile isBlank t.trimStart
    have hhead : t.trimStart.head?.any isBlank = false := any_head?_dropWhile isBlank t
    rw [trim, trimEnd]
    cases hd : dropEndWhile isBlank t.trimStart with
    | nil => rfl
    | cons c s =>
      rw [he, hd] at hhead
      exact hhead
  last := any_getLast?_dropEndWhile isBlank t.trimStart

theorem trimStart_append_of_all (hw : w.all isBlank = true) (t : Text) :
    trimStart (w ++ t) = trimStart t :=
  List.dropWhile_append_of_pos (List.all_eq_true.mp hw)

theorem trim_append_of_all (he : e.all isBlank = true) (t : Text) : trim (t ++ e) = trim t := by
  have hnone : e.dropWhile isBlank = [] := by
    have h := trimStart_append_of_all he []
    rwa [List.append_nil] at h
  unfold trim trimStart trimEnd
  rw [List.dropWhile_append]
  split
  · next h =>
    rw [List.isEmpty_iff] at h
    rw [h, hnone]
  · exact dropEndWhile_append_of_all he _

theorem Trimmed.trim_eq (hm : Trimmed m) : trim m = m := by
  have h := dropEndWhile_append hm.last []
  rw [List.append_nil] at h
  rw [trim, trimStart, dropWhile_of_any_head? hm.head, trimEnd, h]
  exact List.append_nil m

/-- Blanks around a trimmed text are what trimming takes off. -/
theorem Trimmed.trim_blanks (hm : Trimmed m) (hw : w.all isBlank = true) (he : e.all isBlank = true) :
    trim (w ++ m ++ e) = m := by
  rw [trim_append_of_all he, trim, trimStart_append_of_all hw]
  exact hm.trim_eq

theorem exists_blanks_trim (t : Text) :
    ∃ w e, t = w ++ trim t ++ e ∧ w.all isBlank = true ∧ e.all isBlank = true := by
  obtain ⟨e, he, hall⟩ := exists_all_dropEndWhile isBlank t.trimStart
  refine ⟨t.indent, e, ?_, List.all_takeWhile, hall⟩
  rw [trim, trimEnd, List.append_assoc, ← he, indent_append_trimStart]

theorem mem_of_mem_trim {c : Char} (h : c ∈ trim t) : c ∈ t := by
  obtain ⟨w, e, ht, _, _⟩ := exists_blanks_trim t
  rw [ht]
  exact List.mem_append_left e (List.mem_append_right w h)

end AbnfServer.Text
