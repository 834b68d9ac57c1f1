-- Where the starts of a text end. Such an end has a byte offset and a place, a
-- line and a column; the line index turns one into the other and back, and both
-- orders are the order of the starts.
import AbnfServer.Text.LineIndex

namespace AbnfServer

namespace Text

/-! ## Starts and their sizes -/

theorem bytes_pos {t : Text} (h : t ≠ []) : 0 < t.bytes := by
  cases t with
  | nil => exact absurd rfl h
  | cons c t =>
    have hc := c.utf8Size_pos
    simp only [bytes]
    omega

theorem charUnits_pos (c : Char) : 0 < charUnits c := by
  unfold charUnits
  split <;> omega

theorem takeBytes_zero (t : Text) : takeBytes 0 t = [] := by
  cases t with
  | nil => rfl
  | cons c t => exact if_neg (Nat.not_le.mpr c.utf8Size_pos)

theorem takeBytes_append {g : Text} {n : Nat} (h : g.bytes ≤ n) (b : Text) :
    takeBytes n (g ++ b) = g ++ takeBytes (n - g.bytes) b := by
  induction g generalizing n with
  | nil => simp [bytes]
  | cons c g ih =>
    simp only [bytes] at h
    have hc : c.utf8Size ≤ n := by omega
    have hg : bytes g ≤ n - c.utf8Size := by omega
    rw [List.cons_append, takeBytes, if_pos hc, ih hg, bytes, Nat.sub_sub]
    rfl

theorem takeBytes_bytes (a b : Text) : takeBytes a.bytes (a ++ b) = a := by
  rw [takeBytes_append (Nat.le_refl _), Nat.sub_self, takeBytes_zero, List.append_nil]

theorem dropBytes_bytes (a b : Text) : dropBytes a.bytes (a ++ b) = b := by
  have h := takeBytes_append_dropBytes a.bytes (a ++ b)
  rw [takeBytes_bytes] at h
  exact List.append_cancel_left h

theorem between_bytes (a m b : Text) : between a.bytes (a ++ m).bytes (a ++ m ++ b) = m := by
  rw [between, List.append_assoc, dropBytes_bytes, bytes_append, Nat.add_sub_cancel_left]
  exact takeBytes_bytes m b

/-- Of two starts of one text, the one of fewer bytes comes first. -/
theorem append_of_bytes_le {a b a' b' : Text} (h : a ++ b = a' ++ b') (hle : a.bytes ≤ a'.bytes) :
    ∃ m, a' = a ++ m ∧ b = m ++ b' := by
  rcases List.append_eq_append_iff.mp h with ⟨m, rfl, rfl⟩ | ⟨m, rfl, rfl⟩
  · exact ⟨m, rfl, rfl⟩
  · rw [bytes_append] at hle
    have hm : m = [] := by
      apply Decidable.byContradiction
      intro hm
      have := bytes_pos hm
      omega
    subst hm
    exact ⟨[], by simp⟩

theorem append_of_bytes_eq {a b a' b' : Text} (h : a ++ b = a' ++ b') (heq : a.bytes = a'.bytes) :
    a = a' ∧ b = b' := by
  obtain ⟨m, rfl, rfl⟩ := append_of_bytes_le h (Nat.le_of_eq heq)
  rw [bytes_append] at heq
  cases m with
  | nil => simp
  | cons c m =>
    have := bytes_pos (t := c :: m) (by simp)
    omega

/-- A character between the two ends of a part is in the part. -/
theorem mem_of_bytes_lt {a w b p q : Text} {c : Char} (h : a ++ w ++ b = p ++ c :: q)
    (hle : a.bytes ≤ p.bytes) (hlt : p.bytes < (a ++ w).bytes) : c ∈ w := by
  rw [List.append_assoc] at h
  obtain ⟨m, rfl, hm⟩ := append_of_bytes_le h hle
  rw [bytes_append, bytes_append] at hlt
  rcases List.append_eq_append_iff.mp hm with ⟨x, rfl, _⟩ | ⟨x, rfl, hx⟩
  · rw [bytes_append] at hlt
    omega
  · cases x with
    | nil => simp at hlt
    | cons d x =>
      obtain ⟨rfl, _⟩ := List.cons.inj hx
      simp

/-! ## Lines -/

/-- Puts a character in front of the first line. -/
theorem lines_cons {c : Char} (h : c ≠ '\n') (t : Text) :
    ∃ l ls, lines t = l :: ls ∧ lines (c :: t) = (c :: l) :: ls := by
  cases hl : lines t with
  | nil => exact absurd hl (lines_ne_nil t)
  | cons l ls => exact ⟨l, ls, rfl, by simp [lines, h, hl]⟩

theorem lines_newline (t : Text) : lines ('\n' :: t) = [] :: lines t := by simp [lines]

theorem lines_of_not_mem {l : Text} (h : '\n' ∉ l) : lines l = [l] := by
  induction l with
  | nil => rfl
  | cons c l ih =>
    rw [List.mem_cons, not_or] at h
    simp [lines, Ne.symm h.1, ih h.2]

theorem lines_append_newline {l : Text} (h : '\n' ∉ l) (t : Text) :
    lines (l ++ '\n' :: t) = l :: lines t := by
  induction l with
  | nil => exact lines_newline t
  | cons c l ih =>
    rw [List.mem_cons, not_or] at h
    simp [lines, Ne.symm h.1, ih h.2]

/-- A text is one line, or it has a first line and goes on behind its newline. -/
theorem newline_cases (t : Text) : '\n' ∉ t ∨ ∃ l s, '\n' ∉ l ∧ t = l ++ '\n' :: s := by
  by_cases h : '\n' ∈ t
  · obtain ⟨l, s, rfl, hl⟩ := List.eq_append_cons_of_mem h
    exact Or.inr ⟨l, s, hl, rfl⟩
  · exact Or.inl h

theorem length_lines (t : Text) : t.lines.length = t.count '\n' + 1 := by
  induction t with
  | nil => rfl
  | cons c t ih =>
    by_cases hc : c = '\n'
    · subst hc
      rw [lines_newline, List.length_cons, ih, List.count_cons_self]
    · obtain ⟨l, ls, hl, hcl⟩ := lines_cons hc t
      rw [hl, List.length_cons] at ih
      rw [hcl, List.length_cons, ih, List.count_cons_of_ne hc]

/-! ## Places -/

/-- The line and the column at which a text ends. -/
def place : Text → Nat × Nat
  | [] => (0, 0)
  | c :: t =>
    if c = '\n' then ((place t).1 + 1, (place t).2)
    else if (place t).1 = 0 then (0, charUnits c + (place t).2)
    else place t

theorem place_append (a m : Text) :
    place (a ++ m) =
      if (place m).1 = 0 then ((place a).1, (place a).2 + (place m).2)
      else ((place a).1 + (place m).1, (place m).2) := by
  induction a with
  | nil =>
    by_cases h : (place m).1 = 0
    · simp [place, h, Prod.ext_iff]
    · simp [place, h]
  | cons c a ih =>
    rw [List.cons_append, place, place, ih]
    by_cases hm : (place m).1 = 0 <;> by_cases hc : c = '\n' <;> by_cases ha : (place a).1 = 0
    all_goals simp [hm, hc, ha]
    all_goals omega

theorem place_ne_zero {m : Text} (h : m ≠ []) : 0 < (place m).1 ∨ 0 < (place m).2 := by
  cases m with
  | nil => exact absurd rfl h
  | cons c m =>
    have hc := charUnits_pos c
    simp only [place]
    split
    · exact Or.inl (Nat.succ_pos _)
    · split
      · exact Or.inr (Nat.add_pos_left hc _)
      · exact Or.inl (by omega)

/-- A longer start ends on a later line, or farther right on the same one. -/
theorem place_lt (a : Text) {m : Text} (h : m ≠ []) :
    (place a).1 < (place (a ++ m)).1 ∨
      (place a).1 = (place (a ++ m)).1 ∧ (place a).2 < (place (a ++ m)).2 := by
  rw [place_append]
  rcases place_ne_zero h with h1 | h1
  · left
    rw [if_neg (by omega)]
    simp only
    omega
  · split
    · exact Or.inr ⟨rfl, Nat.lt_add_of_pos_right h1⟩
    · left
      simp only
      omega

/-- The place of a start: the last line it reaches begins with `p`, and `p` is
what the start has of that line. -/
theorem lines_place (a b : Text) :
    ∃ p s, (lines (a ++ b))[(place a).1]? = some (p ++ s) ∧ p.units = (place a).2 ∧
      bytesOfLines ((lines (a ++ b)).take (place a).1) + p.bytes = a.bytes := by
  induction a with
  | nil =>
    cases hl : lines b with
    | nil => exact absurd hl (lines_ne_nil b)
    | cons l ls => exact ⟨[], l, by simp [place, hl, units, bytes, bytesOfLines]⟩
  | cons c a ih =>
    obtain ⟨p, s, hline, hunits, hbytes⟩ := ih
    by_cases hc : c = '\n'
    · subst hc
      refine ⟨p, s, ?_, ?_, ?_⟩
      · simpa [place, lines_newline] using hline
      · simpa [place] using hunits
      · have hsize : Char.utf8Size '\n' = 1 := rfl
        simp only [place, if_true, List.cons_append, lines_newline, List.take_succ_cons,
          bytesOfLines, bytes, hsize]
        omega
    · obtain ⟨l, ls, hl, hcl⟩ := lines_cons hc (a ++ b)
      rw [hl] at hline hbytes
      by_cases ha : (place a).1 = 0
      · simp only [ha, List.getElem?_cons_zero, Option.some.injEq, List.take_zero,
          bytesOfLines] at hline hbytes
        refine ⟨c :: p, s, ?_, ?_, ?_⟩
        · simp [place, hc, ha, hcl, hline]
        · simp [place, hc, ha, units, hunits]
        · simp only [place, if_neg hc, if_pos ha, List.take_zero, bytesOfLines, bytes]
          omega
      · obtain ⟨i, hi⟩ := Nat.exists_eq_succ_of_ne_zero ha
        rw [hi] at hline hbytes
        simp only [List.take_succ_cons, List.getElem?_cons_succ, bytesOfLines] at hline hbytes
        refine ⟨p, s, ?_, ?_, ?_⟩
        · simp [place, hc, hcl, hi, hline]
        · simp [place, hc, ha, hunits]
        · simp only [place, if_neg hc, hi, Nat.succ_ne_zero, if_false, List.cons_append, hcl,
            List.take_succ_cons, bytesOfLines, bytes]
          omega

theorem takeUnits_units (p s : Text) : takeUnits p.units (p ++ s) = p := by
  induction p with
  | nil => cases s <;> rfl
  | cons c p ih =>
    obtain ⟨n, hn⟩ := Nat.exists_eq_succ_of_ne_zero (Nat.ne_of_gt (charUnits_pos c))
    have h : charUnits c + units p = (n + units p) + 1 := by omega
    have hrest : n + units p + 1 - charUnits c = units p := by omega
    rw [units, h, List.cons_append, takeUnits, hrest, ih]

theorem takeUnits_append_drop (n : Nat) (t : Text) :
    takeUnits n t ++ t.drop (takeUnits n t).length = t := by
  induction t generalizing n with
  | nil => cases n <;> rfl
  | cons c t ih =>
    cases n with
    | zero => rfl
    | succ n => simp [takeUnits, ih]

end Text

namespace LineIndex

open Text

theorem locate_cons (c : Char) (l : Text) (ls : List Text) (o : Nat) :
    locate ((c :: l) :: ls) (c.utf8Size + o) =
      if (locate (l :: ls) o).1 = 0 then (0, charUnits c + (locate (l :: ls) o).2)
      else locate (l :: ls) o := by
  have hcut : takeBytes (c.utf8Size + o) (c :: l) = c :: takeBytes o l := by
    simp [takeBytes]
  cases ls with
  | nil => simp [locate, hcut, units]
  | cons m ls =>
    by_cases h : o ≤ l.bytes
    · simp [locate, h, hcut, units, bytes]
    · have hrest : c.utf8Size + o - (c.utf8Size + l.bytes) - 1 = o - l.bytes - 1 := by omega
      simp [locate, h, bytes, hrest]

/-- The line index finds the place at which the characters in front of an offset end. -/
theorem locate_lines (t : Text) (o : Nat) : locate t.lines o = place (takeBytes o t) := by
  induction t generalizing o with
  | nil => rfl
  | cons c t ih =>
    by_cases hc : c = '\n'
    · subst hc
      have hsize : Char.utf8Size '\n' = 1 := rfl
      cases hl : Text.lines t with
      | nil => exact absurd hl (lines_ne_nil t)
      | cons l ls =>
        rw [hl] at ih
        by_cases ho : o = 0
        · simp [lines_newline, hl, locate, ho, takeBytes_zero, place, units]
        · have hle : 1 ≤ o := by omega
          simp [lines_newline, hl, locate, bytes, takeBytes, hsize, ho, hle, ih, place]
    · obtain ⟨l, ls, hl, hcl⟩ := lines_cons hc t
      rw [hcl]
      rcases Nat.lt_or_ge o c.utf8Size with hlt | hge
      · have hinside : takeBytes o (c :: l) = [] := if_neg (Nat.not_le.mpr hlt)
        have hfirst : o ≤ bytes (c :: l) := by simp only [bytes]; omega
        rw [takeBytes, if_neg (Nat.not_le.mpr hlt)]
        cases ls <;> simp [locate, hinside, hfirst, units, place]
      · obtain ⟨d, rfl⟩ := Nat.exists_eq_add_of_le hge
        rw [locate_cons, ← hl, ih, takeBytes, if_pos hge, Nat.add_sub_cancel_left, place, if_neg hc]

/-- The line index finds the place at which a start ends. -/
theorem locate_bytes (a b : Text) : locate (Text.lines (a ++ b)) a.bytes = place a := by
  rw [locate_lines, takeBytes_bytes]

end LineIndex

/-! ## Positions -/

/-- The position at which a text ends. -/
def Text.position (a : Text) : Position := .ofNat a.place.1 a.place.2

/-- Every place in the text can be written as a position. -/
structure Text.Addressable (t : Text) : Prop where
  lines : t.lines.length ≤ UInt32.size
  columns : ∀ l ∈ t.lines, l.units < UInt32.size

theorem Text.Addressable.toNat_line {t : Text} (h : t.Addressable) {i : Nat} (hi : i < t.lines.length) :
    (UInt32.ofNat i).toNat = i :=
  UInt32.toNat_ofNat_of_lt' (Nat.lt_of_lt_of_le hi h.lines)

theorem Text.Addressable.toNat_column {t l p : Text} (h : t.Addressable) (hline : l ∈ t.lines) (hp : p <+: l) :
    (UInt32.ofNat p.units).toNat = p.units := by
  obtain ⟨s, rfl⟩ := hp
  have hcol := h.columns _ hline
  rw [units_append] at hcol
  exact UInt32.toNat_ofNat_of_lt' (Nat.lt_of_le_of_lt (Nat.le_add_right _ _) hcol)

namespace Text

theorem charUnits_le_utf8Size (c : Char) : charUnits c ≤ c.utf8Size := by
  have hpos := c.utf8Size_pos
  unfold charUnits
  split
  · omega
  · next h =>
    have hbig : ∀ n : UInt32, n.toNat ≤ 0xFFFF → ¬ c.val ≤ n := by
      intro n hn hle
      rw [UInt32.le_iff_toNat_le] at hle
      rw [UInt32.lt_iff_toNat_lt] at h
      have hbound : (0x10000 : UInt32).toNat = 0x10000 := rfl
      omega
    have hsize : c.utf8Size = 4 := by
      unfold Char.utf8Size
      rw [if_neg (hbig _ (by decide)), if_neg (hbig _ (by decide)), if_neg (hbig _ (by decide))]
    omega

theorem units_le_bytes (t : Text) : t.units ≤ t.bytes := by
  induction t with
  | nil => exact Nat.le_refl 0
  | cons c t ih => exact Nat.add_le_add (charUnits_le_utf8Size c) ih

theorem bytesOfLines_lines (t : Text) : bytesOfLines t.lines = t.bytes + 1 := by
  induction t with
  | nil => rfl
  | cons c t ih =>
    by_cases hc : c = '\n'
    · subst hc
      have hsize : Char.utf8Size '\n' = 1 := rfl
      simp only [lines_newline, bytesOfLines, bytes, ih, hsize]
      omega
    · obtain ⟨l, ls, hl, hcl⟩ := lines_cons hc t
      rw [hl] at ih
      simp only [hcl, bytesOfLines, bytes] at ih ⊢
      omega

theorem length_le_bytesOfLines (ls : List Text) : ls.length ≤ bytesOfLines ls := by
  induction ls with
  | nil => exact Nat.le_refl 0
  | cons l ls ih =>
    simp only [List.length_cons, bytesOfLines]
    omega

theorem bytes_lt_bytesOfLines {l : Text} {ls : List Text} (h : l ∈ ls) : l.bytes < bytesOfLines ls := by
  induction ls with
  | nil => cases h
  | cons k ls ih =>
    simp only [bytesOfLines]
    rcases List.mem_cons.mp h with rfl | h
    · omega
    · have := ih h
      omega

/-- A text of less than `2 ^ 32` bytes is addressable. -/
theorem addressable_of_bytes_lt {t : Text} (h : t.bytes < UInt32.size) : t.Addressable where
  lines := by
    have hle := length_le_bytesOfLines t.lines
    rw [bytesOfLines_lines] at hle
    omega
  columns l hl := by
    have hle := units_le_bytes l
    have hlt := bytes_lt_bytesOfLines hl
    rw [bytesOfLines_lines] at hlt
    omega

end Text

namespace LineIndex

open Text

variable {a b m t : Text}

theorem positionOf_bytes (a b : Text) : (ofText (a ++ b)).positionOf a.bytes = a.position := by
  simp only [positionOf, ofText, locate_bytes]
  rfl

theorem rangeOf_bytes (a m b : Text) :
    (ofText (a ++ m ++ b)).rangeOf a.bytes (a ++ m).bytes = ⟨a.position, (a ++ m).position⟩ := by
  rw [rangeOf, positionOf_bytes, List.append_assoc, positionOf_bytes]

theorem place_fits (h : Addressable (a ++ b)) :
    a.place.1 < UInt32.size ∧ a.place.2 < UInt32.size := by
  obtain ⟨p, s, hline, hunits, _⟩ := lines_place a b
  have hlt : a.place.1 < (Text.lines (a ++ b)).length := (List.getElem?_eq_some_iff.mp hline).1
  have hcol := h.columns _ (List.mem_of_getElem? hline)
  rw [units_append, hunits] at hcol
  have hlines := h.lines
  constructor <;> omega

theorem toNat_position (h : Addressable (a ++ b)) :
    a.position.line.toNat = a.place.1 ∧ a.position.character.toNat = a.place.2 := by
  obtain ⟨hl, hc⟩ := place_fits h
  exact ⟨UInt32.toNat_ofNat_of_lt' hl, UInt32.toNat_ofNat_of_lt' hc⟩

/-- The line index finds the start that ends at a position, whatever comes behind it. -/
theorem offsetOf?_start (h : Addressable (a ++ b)) (c : Text) :
    (ofText (a ++ c)).offsetOf? a.position = some a.bytes := by
  obtain ⟨p, s, hline, hunits, hbytes⟩ := lines_place a c
  obtain ⟨hl, hcol⟩ := toNat_position h
  simp only [offsetOf?, ofText, hl, hcol, hline, Option.map_some, lineStart, ← hunits,
    takeUnits_units, hbytes]

theorem spanOf?_start (h : Addressable (a ++ m ++ b)) (c : Text) :
    (ofText (a ++ m ++ c)).spanOf? ⟨a.position, (a ++ m).position⟩ = some (a.bytes, (a ++ m).bytes) := by
  have hstop := offsetOf?_start h c
  rw [List.append_assoc] at h hstop ⊢
  have hstart := offsetOf?_start h (m ++ c)
  simp [spanOf?, hstart, hstop]

theorem offsetOf?_position (h : Addressable (a ++ b)) :
    (ofText (a ++ b)).offsetOf? a.position = some a.bytes :=
  offsetOf?_start h b

theorem spanOf?_positions (h : Addressable (a ++ m ++ b)) :
    (ofText (a ++ m ++ b)).spanOf? ⟨a.position, (a ++ m).position⟩ =
      some (a.bytes, (a ++ m).bytes) :=
  spanOf?_start h b

theorem slice?_of_spanOf? {ix : LineIndex} {r : Range} (h : ix.spanOf? r = some (a.bytes, (a ++ m).bytes)) :
    ix.slice? (a ++ m ++ b) r = some m := by
  have hle : a.bytes ≤ (a ++ m).bytes := by
    rw [bytes_append]
    omega
  unfold slice?
  rw [h]
  simp only [Option.bind_eq_bind, Option.bind_some, if_pos hle, between_bytes]

theorem slice?_positions (h : Addressable (a ++ m ++ b)) :
    (ofText (a ++ m ++ b)).slice? (a ++ m ++ b) ⟨a.position, (a ++ m).position⟩ = some m :=
  slice?_of_spanOf? (spanOf?_positions h)

/-! ## The order of positions -/

theorem rank_position (h : Addressable (a ++ b)) :
    a.position.rank = a.place.1 * UInt32.size + a.place.2 := by
  obtain ⟨hl, hc⟩ := toNat_position h
  rw [Position.rank, hl, hc]

theorem position_lt (h : Addressable (a ++ m ++ b)) (hm : m ≠ []) : a.position < (a ++ m).position := by
  have hstop := rank_position h
  rw [List.append_assoc] at h
  have hstart := rank_position h
  obtain ⟨_, hcol⟩ := place_fits h
  rw [Position.lt_def, hstart, hstop]
  rcases place_lt a hm with hlt | ⟨heq, hlt⟩
  · have hle := Nat.mul_le_mul_right UInt32.size (Nat.succ_le_of_lt hlt)
    rw [Nat.succ_mul] at hle
    omega
  · rw [← heq]
    omega

/-- Starts of one text lie like their offsets. -/
theorem position_le_iff {a' b' : Text} (h : Addressable t) (ha : t = a ++ b) (ha' : t = a' ++ b') :
    a.position ≤ a'.position ↔ a.bytes ≤ a'.bytes := by
  rw [Position.le_def]
  rcases Nat.le_total a.bytes a'.bytes with hle | hle
  · obtain ⟨m, rfl, rfl⟩ := append_of_bytes_le (ha.symm.trans ha') hle
    simp only [hle, iff_true]
    by_cases hm : m = []
    · simp [hm]
    · rw [ha'] at h
      exact Nat.le_of_lt (position_lt h hm)
  · obtain ⟨m, rfl, rfl⟩ := append_of_bytes_le (ha'.symm.trans ha) hle
    by_cases hm : m = []
    · simp [hm]
    · rw [ha] at h
      have hlt := position_lt h hm
      rw [Position.lt_def] at hlt
      have hpos := bytes_pos hm
      rw [bytes_append]
      omega

theorem position_lt_iff {a' b' : Text} (h : Addressable t) (ha : t = a ++ b) (ha' : t = a' ++ b') :
    a.position < a'.position ↔ a.bytes < a'.bytes := by
  have hle := position_le_iff h ha' ha
  rw [Position.le_def] at hle
  rw [Position.lt_def, ← Nat.not_le, hle, Nat.not_le]

theorem position_eq_iff {a' b' : Text} (h : Addressable t) (ha : t = a ++ b) (ha' : t = a' ++ b') :
    a.position = a'.position ↔ a.bytes = a'.bytes := by
  have hle := position_le_iff h ha ha'
  have hge := position_le_iff h ha' ha
  rw [Position.le_def] at hle hge
  rw [← Position.rank_inj]
  omega

/-- How two parts of a text lie: their ranges start and end in the order of the offsets. -/
theorem parts_le_iff {a' m' b' : Text} (h : Addressable t) (ha : t = a ++ m ++ b) (ha' : t = a' ++ m' ++ b') :
    (a.position ≤ a'.position ↔ a.bytes ≤ a'.bytes) ∧
      (a.position ≤ (a' ++ m').position ↔ a.bytes ≤ (a' ++ m').bytes) := by
  have hstart : t = a ++ (m ++ b) := by rw [ha, List.append_assoc]
  have hstart' : t = a' ++ (m' ++ b') := by rw [ha', List.append_assoc]
  exact ⟨position_le_iff h hstart hstart', position_le_iff h hstart ha'⟩

theorem parts_touch_iff {a' m' b' : Text} (h : Addressable t) (ha : t = a ++ m ++ b) (ha' : t = a' ++ m' ++ b') :
    Range.touches ⟨a.position, (a ++ m).position⟩ ⟨a'.position, (a' ++ m').position⟩ = true ↔
      a.bytes ≤ (a' ++ m').bytes ∧ a'.bytes ≤ (a ++ m).bytes := by
  rw [Range.touches, Bool.and_eq_true, decide_eq_true_eq, decide_eq_true_eq, (parts_le_iff h ha ha').2,
    (parts_le_iff h ha' ha).2]

end LineIndex

end AbnfServer
