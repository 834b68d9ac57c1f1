-- What the line index makes of any offset and of any position. An offset is rounded
-- down to the end of a start of the text, a position up to one in its own line, and
-- both directions keep the order.
import AbnfServer.Proofs.Text.Lines
import Mathlib.Order.Bounds.Basic

namespace AbnfServer

namespace Text

variable {l t x y before after : Text} {m n o : Nat}

/-! ## Rounding an offset -/

/-- An offset at which a character starts, or the text ends. -/
def Boundary (t : Text) (o : Nat) : Prop := ∃ a b, t = a ++ b ∧ a.bytes = o

theorem boundary_takeBytes (o : Nat) (t : Text) : t.Boundary (takeBytes o t).bytes :=
  ⟨_, _, (takeBytes_append_dropBytes o t).symm, rfl⟩

theorem bytes_takeBytes_le (o : Nat) (t : Text) : (takeBytes o t).bytes ≤ o := by
  induction t generalizing o with
  | nil => exact Nat.zero_le o
  | cons c t ih =>
    rw [takeBytes]
    split
    · have hrest := ih (o - c.utf8Size)
      simp only [bytes]
      omega
    · exact Nat.zero_le o

theorem Boundary.le_takeBytes (h : t.Boundary n) (hle : n ≤ o) : n ≤ (takeBytes o t).bytes := by
  obtain ⟨a, b, rfl, rfl⟩ := h
  rw [takeBytes_append hle, bytes_append]
  omega

theorem Boundary.le_bytes (h : t.Boundary n) : n ≤ t.bytes := by
  obtain ⟨a, b, rfl, rfl⟩ := h
  rw [bytes_append]
  omega

/-- The characters that fit in front of an offset end at the last boundary there. -/
theorem isGreatest_takeBytes (o : Nat) (t : Text) :
    IsGreatest {b | t.Boundary b ∧ b ≤ min o t.bytes} (takeBytes o t).bytes := by
  have hbound := boundary_takeBytes o t
  refine ⟨⟨hbound, Nat.le_min.mpr ⟨bytes_takeBytes_le o t, hbound.le_bytes⟩⟩, ?_⟩
  rintro b ⟨hb, hle⟩
  exact hb.le_takeBytes (Nat.le_trans hle (Nat.min_le_left _ _))

/-! ## Rounding a column -/

/-- The start that is cut off reaches the column, if the line does. -/
theorem le_units_takeUnits (h : n ≤ l.units) : n ≤ (takeUnits n l).units := by
  induction l generalizing n with
  | nil => cases n <;> exact h
  | cons c l ih =>
    cases n with
    | zero => exact Nat.zero_le _
    | succ n =>
      simp only [units] at h
      have hrest := ih (n := n + 1 - charUnits c) (by omega)
      simp only [takeUnits, units]
      omega

/-- It is part of every start that reaches the column. -/
theorem exists_takeUnits_append (y : Text) (h : n ≤ x.units) : ∃ z, x = takeUnits n (x ++ y) ++ z := by
  induction x generalizing n with
  | nil =>
    have hn : n = 0 := Nat.le_zero.mp h
    exact ⟨[], by rw [hn]; cases y <;> rfl⟩
  | cons c x ih =>
    cases n with
    | zero => exact ⟨c :: x, rfl⟩
    | succ n =>
      simp only [units] at h
      obtain ⟨z, hz⟩ := ih (n := n + 1 - charUnits c) (by omega)
      exact ⟨z, congrArg (c :: ·) hz⟩

theorem takeUnits_of_lt (h : l.units < n) : takeUnits n l = l := by
  induction l generalizing n with
  | nil => cases n <;> rfl
  | cons c l ih =>
    cases n with
    | zero => cases h
    | succ n =>
      simp only [units] at h
      rw [takeUnits, ih (by omega)]

/-- Of two columns, the farther one cuts off the longer start. -/
theorem bytes_takeUnits_mono (l : Text) (h : m ≤ n) : (takeUnits m l).bytes ≤ (takeUnits n l).bytes := by
  have hcut := takeUnits_append_drop n l
  rcases Nat.lt_or_ge l.units n with hlt | hge
  · rw [takeUnits_of_lt hlt]
    have hwhole := congrArg bytes (takeUnits_append_drop m l)
    rw [bytes_append] at hwhole
    omega
  · obtain ⟨z, hz⟩ := exists_takeUnits_append (l.drop (takeUnits n l).length)
      (Nat.le_trans h (le_units_takeUnits hge))
    rw [hcut] at hz
    rw [hz, bytes_append]
    omega

/-- The offset at which a line that starts behind `before` is cut at column `n`: its
first boundary that far from its start, or its end when there is none. -/
def CutAt (before line : Text) (n o : Nat) : Prop :=
  IsLeast {b | ∃ x y, line = x ++ y ∧ n ≤ x.units ∧ b = (before ++ x).bytes} o ∨
    line.units < n ∧ o = (before ++ line).bytes

theorem cutAt_iff {line : Text} : CutAt before line n o ↔ o = (before ++ takeUnits n line).bytes := by
  rcases Nat.lt_or_ge line.units n with hlt | hge
  · rw [CutAt, takeUnits_of_lt hlt]
    constructor
    · rintro (⟨⟨x, y, rfl, hx, _⟩, _⟩ | ⟨_, ho⟩)
      · rw [units_append] at hlt
        omega
      · exact ho
    · intro ho
      exact Or.inr ⟨hlt, ho⟩
  · have hleast : IsLeast {b | ∃ x y, line = x ++ y ∧ n ≤ x.units ∧ b = (before ++ x).bytes}
        (before ++ takeUnits n line).bytes := by
      refine ⟨⟨_, _, (takeUnits_append_drop n line).symm, le_units_takeUnits hge, rfl⟩, ?_⟩
      rintro b ⟨x, y, rfl, hx, rfl⟩
      obtain ⟨z, hz⟩ := exists_takeUnits_append y hx
      rw [bytes_append, bytes_append, congrArg bytes hz, bytes_append]
      omega
    constructor
    · rintro (ho | ⟨hlt, _⟩)
      · exact ho.unique hleast
      · omega
    · rintro rfl
      exact Or.inl hleast

/-! ## Lines in order -/

/-- A line is over before the next one starts. -/
theorem LineAt.end_lt {line before' line' after' : Text} (h : LineAt t m before line after)
    (h' : LineAt t n before' line' after') (hlt : m < n) : (before ++ line).bytes < before'.bytes := by
  apply Nat.lt_of_not_le
  intro hle
  have hsame : before' ++ (line' ++ after') = before ++ line ++ after := by
    rw [← List.append_assoc, ← h'.cut, h.cut]
  obtain ⟨z, hz, _⟩ := append_of_bytes_le hsame hle
  -- all newlines of `before'` would be in front of line `m`
  have hcount := congrArg (List.count '\n') hz
  rw [List.count_append, List.count_append, h.number, h'.number,
    List.count_eq_zero_of_not_mem h.inner] at hcount
  omega

end Text

namespace LineIndex

open Text

variable {t before line after : Text} {p q : Position} {n o : Nat}

theorem positionOf_eq (t : Text) (o : Nat) : (ofText t).positionOf o = (takeBytes o t).position := by
  simp only [positionOf, ofText, locate_lines]
  rfl

theorem lineStart_eq (h : LineAt t n before line after) : (ofText t).lineStart n = before.bytes := by
  obtain ⟨p, s, _, hunits, hbytes⟩ := lines_place before (line ++ after)
  rw [← List.append_assoc, ← h.cut, h.place] at hbytes
  rw [h.place] at hunits
  have hp : p = [] := by
    cases p with
    | nil => rfl
    | cons c p =>
      have hc := charUnits_pos c
      simp only [units] at hunits
      omega
  rw [hp] at hbytes
  exact hbytes

theorem offsetOf?_lineAt (h : LineAt t p.line.toNat before line after) :
    (ofText t).offsetOf? p = some (before ++ takeUnits p.character.toNat line).bytes := by
  have hline : (ofText t).lines[p.line.toNat]? = some line := h.getElem?
  rw [offsetOf?, hline, Option.map_some, lineStart_eq h, bytes_append]

/-- The offset of a position is where its line is cut at its column. -/
theorem offsetOf?_iff : (ofText t).offsetOf? p = some o ↔
    ∃ before line after, LineAt t p.line.toNat before line after ∧
      CutAt before line p.character.toNat o := by
  constructor
  · intro h
    obtain ⟨line, hline, _⟩ := Option.map_eq_some_iff.mp h
    obtain ⟨before, after, hat⟩ := exists_lineAt hline
    rw [offsetOf?_lineAt hat, Option.some.injEq] at h
    exact ⟨before, line, after, hat, cutAt_iff.mpr h.symm⟩
  · rintro ⟨before, line, after, hat, hcut⟩
    rw [offsetOf?_lineAt hat, cutAt_iff.mp hcut]

theorem offsetOf?_eq_none_iff : (ofText t).offsetOf? p = none ↔ t.count '\n' < p.line.toNat := by
  rw [offsetOf?, Option.map_eq_none_iff, List.getElem?_eq_none_iff, ofText, length_lines]
  exact Nat.succ_le_iff

/-! ## Order -/

theorem positionOf_lt {o o' : Nat} (ht : t.Addressable) (h : t.Boundary o) (h' : t.Boundary o') (hlt : o < o') :
    (ofText t).positionOf o < (ofText t).positionOf o' := by
  obtain ⟨a, b, hcut, rfl⟩ := h
  obtain ⟨a', b', hcut', rfl⟩ := h'
  have hfirst := positionOf_bytes a b
  have hsecond := positionOf_bytes a' b'
  rw [← hcut] at hfirst
  rw [← hcut'] at hsecond
  rw [hfirst, hsecond]
  exact (position_lt_iff ht hcut hcut').mpr hlt

theorem offsetOf?_mono (hle : p ≤ q) (hq : (ofText t).offsetOf? q = some n) :
    ∃ m, (ofText t).offsetOf? p = some m ∧ m ≤ n := by
  rw [Position.le_def, Position.rank, Position.rank] at hle
  have hpcol := p.character.toNat_lt
  have hqcol := q.character.toNat_lt
  have hline : p.line.toNat ≤ q.line.toNat := by omega
  cases hp : (ofText t).offsetOf? p with
  | none =>
    have hmissing : (ofText t).offsetOf? q = none :=
      offsetOf?_eq_none_iff.mpr (Nat.lt_of_lt_of_le (offsetOf?_eq_none_iff.mp hp) hline)
    rw [hmissing] at hq
    cases hq
  | some m =>
    refine ⟨m, rfl, ?_⟩
    obtain ⟨before, line, after, hat, hm⟩ := offsetOf?_iff.mp hp
    obtain ⟨before', line', after', hat', hn⟩ := offsetOf?_iff.mp hq
    rcases Nat.lt_or_eq_of_le hline with hlt | heq
    · have hbetween := hat.end_lt hat' hlt
      have hwhole := congrArg bytes (takeUnits_append_drop p.character.toNat line)
      rw [cutAt_iff.mp hm, cutAt_iff.mp hn]
      simp only [bytes_append] at hbetween hwhole ⊢
      omega
    · have hcol : p.character.toNat ≤ q.character.toNat := by omega
      rw [heq] at hat
      have hq' := offsetOf?_lineAt hat
      rw [hq, Option.some.injEq] at hq'
      have hmono := bytes_takeUnits_mono line hcol
      rw [cutAt_iff.mp hm, hq']
      simp only [bytes_append]
      omega

/-! ## The law -/

/-- Offsets and positions are turned into each other exactly. An offset that is turned
there and back is rounded down to a boundary; a position is rounded up to one in its
line, and has an offset just when the line is there. So both directions keep the order. -/
theorem offsets_and_positions_convert {t : Text} (ht : t.bytes < UInt32.size) :
    (∀ o, ∃ n, (ofText t).offsetOf? ((ofText t).positionOf o) = some n ∧
        IsGreatest {b | t.Boundary b ∧ b ≤ min o t.bytes} n) ∧
      (∀ p n, (ofText t).offsetOf? p = some n ↔
        ∃ before line after, LineAt t p.line.toNat before line after ∧
          CutAt before line p.character.toNat n) ∧
      (∀ p, (ofText t).offsetOf? p = none ↔ t.count '\n' < p.line.toNat) ∧
      (∀ o o', t.Boundary o → t.Boundary o' → o < o' →
        (ofText t).positionOf o < (ofText t).positionOf o') ∧
      ∀ p q n, p ≤ q → (ofText t).offsetOf? q = some n →
        ∃ m, (ofText t).offsetOf? p = some m ∧ m ≤ n := by
  have haddr := addressable_of_bytes_lt ht
  refine ⟨?_, fun _ _ => offsetOf?_iff, fun _ => offsetOf?_eq_none_iff,
    fun _ _ => positionOf_lt haddr, fun _ _ _ => offsetOf?_mono⟩
  intro o
  refine ⟨(takeBytes o t).bytes, ?_, isGreatest_takeBytes o t⟩
  have hcut := takeBytes_append_dropBytes o t
  rw [← hcut] at haddr
  have hback := offsetOf?_position haddr
  rwa [hcut, ← positionOf_eq] at hback

/-- Inside a character of four bytes and two units, the offset goes back to its start
and the column on to its end. Behind it, both units count. -/
theorem both_directions_round :
    let t : Text := "é𝄞\nb".toList
    t.bytes < UInt32.size ∧
      (ofText t).positionOf 4 = ⟨0, 1⟩ ∧ IsGreatest {b | t.Boundary b ∧ b ≤ min 4 t.bytes} 2 ∧
      (ofText t).positionOf 6 = ⟨0, 3⟩ ∧ (ofText t).offsetOf? ⟨0, 3⟩ = some 6 ∧
      ∃ before line after, LineAt t 0 before line after ∧ CutAt before line 2 6 := by
  have hsize : Text.bytes "é𝄞\nb".toList < UInt32.size := by decide
  obtain ⟨hoffset, hposition, _⟩ := offsets_and_positions_convert hsize
  obtain ⟨n, hn, hgreatest⟩ := hoffset 4
  have hback : (ofText "é𝄞\nb".toList).offsetOf? ((ofText "é𝄞\nb".toList).positionOf 4) = some 2 := by
    decide
  rw [hback, Option.some.injEq] at hn
  rw [← hn] at hgreatest
  have hcol : (ofText "é𝄞\nb".toList).offsetOf? ⟨0, 2⟩ = some 6 := by decide
  exact ⟨hsize, by decide, hgreatest, by decide, by decide, (hposition ⟨0, 2⟩ 6).mp hcol⟩

end LineIndex

end AbnfServer
