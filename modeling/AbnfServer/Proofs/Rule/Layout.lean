-- The canonical layout: how the reader takes a definition apart, what the layout
-- makes of it, and that the reader finds the same definition there again.
import AbnfServer.Proofs.Text.Lines
import AbnfServer.Proofs.Rule.Definitions
import AbnfServer.Rule.Layout

namespace AbnfServer.Rule

open Text

variable {l t r : Text} {o : Operator} {d : DefinitionLine}

/-! ## Reading a definition -/

/-- A line that defines a rule, taken apart. Blanks may stand in front of the name
and of the operator, and a slash behind the equals sign belongs to the operator.
The body is what follows, without the blanks at its ends. -/
structure Reads (l : Text) (d : DefinitionLine) : Prop where
  named : isName d.name = true
  indent : d.indent.all isBlank = true
  parts : ∃ s r, l = d.indent ++ d.name ++ s ++ d.operator.text ++ r ∧ s.all isBlank = true ∧
    (d.operator = .defines → r.head? ≠ some '/') ∧ d.body = trim r

theorem any_head?_operator (o : Operator) (r : Text) :
    (o.text ++ r).head?.any isBlank = false ∧ (o.text ++ r).head?.any isNameChar = false := by
  cases o <;> exact ⟨rfl, rfl⟩

theorem any_getLast?_operator (x : Text) (o : Operator) : (x ++ o.text).getLast?.any isBlank = false := by
  cases o
  · rw [Operator.text, List.getLast?_append]
    rfl
  · rw [Operator.text, List.getLast?_append]
    rfl

theorem readOperator?_iff :
    DefinitionLine.readOperator? t = some (o, r) ↔
      t = o.text ++ r ∧ (o = .defines → r.head? ≠ some '/') := by
  constructor
  · intro h
    unfold DefinitionLine.readOperator? at h
    split at h
    · cases h
      exact ⟨rfl, by simp⟩
    · next hslash =>
      cases h
      refine ⟨rfl, fun _ hr => ?_⟩
      obtain ⟨r', rfl⟩ := List.head?_eq_some_iff.mp hr
      exact hslash r' rfl
    · cases h
  · rintro ⟨rfl, h⟩
    cases o with
    | «extends» => rfl
    | defines =>
      unfold DefinitionLine.readOperator?
      split
      · next heq =>
        rw [Operator.text, List.cons_append, List.nil_append, List.cons.injEq] at heq
        exact absurd (by simp [heq.2]) (h rfl)
      · next heq =>
        rw [Operator.text, List.cons_append, List.nil_append, List.cons.injEq] at heq
        rw [heq.2]
      · next hnone => exact absurd rfl (hnone r)

theorem reads_of_read? (h : DefinitionLine.read? l = some d) : Reads l d := by
  unfold DefinitionLine.read? at h
  simp only [Option.bind_eq_bind] at h
  split at h
  · cases h
  · next hname =>
    obtain ⟨⟨o, r⟩, ho, hd⟩ := Option.bind_eq_some_iff.mp h
    obtain ⟨hrest, hslash⟩ := readOperator?_iff.mp ho
    obtain ⟨e, htrim, he⟩ := exists_all_dropEndWhile isBlank l.trimStart
    have hd := Option.some.inj hd
    subst hd
    refine ⟨by simpa using hname, List.all_takeWhile, indent (l.trim.dropWhile isNameChar), r ++ e,
      ?_, List.all_takeWhile, ?_, (trim_append_of_all he r).symm⟩
    · have hline : l = l.indent ++ (l.trim ++ e) := by
        rw [trim, trimEnd, ← htrim, indent_append_trimStart]
      have hword := List.takeWhile_append_dropWhile (p := isNameChar) (l := l.trim)
      have hgap := indent_append_trimStart (l.trim.dropWhile isNameChar)
      rw [hrest] at hgap
      rw [← hgap] at hword
      rw [← hword] at hline
      simpa only [List.append_assoc] using hline
    · intro hdefines hhead
      cases r with
      | nil =>
        obtain ⟨e', rfl⟩ := List.head?_eq_some_iff.mp hhead
        cases he
      | cons c r => exact hslash hdefines hhead

theorem read?_of_reads (h : Reads l d) : DefinitionLine.read? l = some d := by
  obtain ⟨indent, name, operator, body⟩ := d
  obtain ⟨hname, hindent, s, r, rfl, hs, hslash, rfl⟩ := h
  simp only at hname hindent hslash ⊢
  obtain ⟨e, hr, he⟩ := exists_all_dropEndWhile isBlank r
  have hgap (y : Text) : (s ++ (operator.text ++ y)).head?.any isNameChar = false := by
    cases s with
    | nil => exact (any_head?_operator operator y).2
    | cons b s => exact isNameChar_of_isBlank (List.all_eq_true.mp hs b List.mem_cons_self)
  have hchars : name.all isNameChar = true :=
    List.all_eq_true.mpr fun c hc => isNameChar_of_mem hname hc
  obtain ⟨hbefore, hbehind⟩ := takeWhile_append_stop hindent
    (any_head?_name hname (s ++ (operator.text ++ r)))
  have htrim : trim (indent ++ (name ++ (s ++ (operator.text ++ r)))) =
      name ++ (s ++ (operator.text ++ trimEnd r)) := by
    have hend := dropEndWhile_append (any_getLast?_operator (name ++ s) operator) r
    simp only [List.append_assoc] at hend
    rw [trim, trimStart, hbehind, trimEnd, hend]
    rfl
  obtain ⟨hrun, hrest⟩ := takeWhile_append_stop hchars (hgap (trimEnd r))
  have hoperator : trimStart (s ++ (operator.text ++ trimEnd r)) = operator.text ++ trimEnd r :=
    (takeWhile_append_stop hs (any_head?_operator operator _).1).2
  have hread : DefinitionLine.readOperator? (operator.text ++ trimEnd r) =
      some (operator, trimEnd r) := by
    refine readOperator?_iff.mpr ⟨rfl, fun hdefines hhead => hslash hdefines ?_⟩
    obtain ⟨y, hy⟩ := List.head?_eq_some_iff.mp hhead
    rw [trimEnd] at hy
    rw [hr, hy]
    rfl
  have hbody : trim (trimEnd r) = trim r := by
    have h := trim_append_of_all he (trimEnd r)
    rw [trimEnd, ← hr] at h
    exact h.symm
  simp only [List.append_assoc]
  simp only [DefinitionLine.read?, htrim, hrun, hrest, hoperator, hread, hname, hbody, Text.indent,
    hbefore, Option.bind_eq_bind, Option.bind_some, Option.pure_def, Bool.not_true,
    Bool.false_eq_true, if_false]

/-- The reader, told without a search. -/
theorem read?_iff : DefinitionLine.read? l = some d ↔ Reads l d :=
  ⟨reads_of_read?, read?_of_reads⟩

/-- The lines that define a rule are those that can be taken apart. -/
theorem defines_iff_reads {n : Text} : Defines l n ↔ ∃ d, Reads l d ∧ d.name = n := by
  rw [← definedName?_iff, definedName?, Option.map_eq_some_iff]
  simp only [read?_iff]

/-- Behind its indentation, a definition starts with a letter. -/
theorem Reads.head?_trim (h : Reads l d) : ∃ c, (trim l).head? = some c ∧ c.isAlpha = true := by
  obtain ⟨s, r, hl, _⟩ := h.parts
  obtain ⟨c, w, hcw, hc⟩ := exists_head_of_isName h.named
  have hblank := isBlank_of_isNameChar (isNameChar_of_isAlpha hc)
  have hmove : l = d.indent ++ c :: (w ++ s ++ d.operator.text ++ r) := by simp [hl, hcw]
  have hstart : trimStart l = c :: (w ++ s ++ d.operator.text ++ r) := by
    rw [hmove]
    exact (takeWhile_append_stop (y := c :: _) h.indent hblank).2
  obtain ⟨z, hz⟩ := dropEndWhile_append_cons [] (w ++ s ++ d.operator.text ++ r) hblank
  refine ⟨c, ?_, hc⟩
  rw [trim, hstart, trimEnd, ← List.nil_append (c :: _), hz]
  rfl

theorem Reads.trimmed (h : Reads l d) : Trimmed d.body := by
  obtain ⟨s, r, _, _, _, hbody⟩ := h.parts
  rw [hbody]
  exact trimmed_trim r

/-! ## The layout of a line -/

theorem layoutLine_of_reads (h : Reads l d) : layoutLine l = d.layout ++ lineEnding l := by
  rw [layoutLine, read?_iff.mpr h]

theorem layoutLine_of_not_reads (h : ∀ d, ¬ Reads l d) : layoutLine l = l := by
  have hnone : DefinitionLine.read? l = none := by
    rw [Option.eq_none_iff_forall_ne_some]
    intro d hd
    exact h d (read?_iff.mp hd)
  rw [layoutLine, hnone]

theorem all_isBlank_lineEnding (l : Text) : (lineEnding l).all isBlank = true := by
  unfold lineEnding
  split <;> rfl

/-- The layout of a body: what stands between the operator and the line ending. -/
theorem layout_eq (d : DefinitionLine) :
    d.layout = d.name ++ ' ' :: d.operator.text ++ (if d.body = [] then [] else ' ' :: d.body) := by
  simp [DefinitionLine.layout, List.isEmpty_iff]

/-- The reader finds the definition again, at the start of the line. -/
theorem Reads.layoutLine (h : Reads l d) : Reads (layoutLine l) { d with indent := [] } where
  named := h.named
  indent := rfl
  parts := by
    have hblank := all_isBlank_lineEnding l
    refine ⟨[' '], (if d.body = [] then [] else ' ' :: d.body) ++ lineEnding l, ?_, rfl, ?_, ?_⟩
    · rw [layoutLine_of_reads h, layout_eq]
      simp
    · intro _
      by_cases hbody : d.body = []
      · rw [if_pos hbody]
        unfold lineEnding
        split <;> simp
      · simp [hbody]
    · by_cases hbody : d.body = []
      · rw [if_pos hbody, trim_append_of_all hblank, hbody]
        rfl
      · rw [if_neg hbody]
        exact (h.trimmed.trim_blanks (w := [' ']) rfl hblank).symm

theorem getLast?_layout_ne (h : Reads l d) : d.layout.getLast? ≠ some '\r' := by
  have hlast : d.layout.getLast?.any isBlank = false := by
    rw [layout_eq]
    by_cases hbody : d.body = []
    · rw [if_pos hbody, List.append_nil]
      have := any_getLast?_operator (d.name ++ [' ']) d.operator
      simpa using this
    · have hmove : d.name ++ ' ' :: d.operator.text ++ ' ' :: d.body =
          d.name ++ ' ' :: d.operator.text ++ [' '] ++ d.body := by simp
      rw [if_neg hbody, hmove, List.getLast?_append, Option.or_of_isSome]
      · exact h.trimmed.last
      · exact List.getLast?_isSome.mpr hbody
  intro hr
  rw [hr] at hlast
  cases hlast

/-- The carriage return at the end of a line is kept, and none is put in. -/
theorem lineEnding_layoutLine (l : Text) : lineEnding (layoutLine l) = lineEnding l := by
  cases hread : DefinitionLine.read? l with
  | none => rw [Rule.layoutLine, hread]
  | some d =>
    have h := read?_iff.mp hread
    rw [layoutLine_of_reads h]
    by_cases hl : l.getLast? = some '\r'
    · simp [lineEnding, hl]
    · have hnone : lineEnding l = [] := if_neg hl
      rw [hnone, List.append_nil, lineEnding, if_neg (getLast?_layout_ne h)]

/-- A line in canonical form is left alone. -/
theorem layoutLine_layoutLine (l : Text) : layoutLine (layoutLine l) = layoutLine l := by
  cases hread : DefinitionLine.read? l with
  | none =>
    have hsame : layoutLine l = l := by rw [Rule.layoutLine, hread]
    rw [hsame, hsame]
  | some d =>
    have h := read?_iff.mp hread
    rw [layoutLine_of_reads h.layoutLine, lineEnding_layoutLine, layoutLine_of_reads h]
    rfl

theorem not_mem_layoutLine (h : '\n' ∉ l) : '\n' ∉ layoutLine l := by
  cases hread : DefinitionLine.read? l with
  | none => rwa [Rule.layoutLine, hread]
  | some d =>
    have hd := read?_iff.mp hread
    obtain ⟨s, r, hl, _, _, hbody⟩ := hd.parts
    have hname : '\n' ∉ d.name := fun hin => by
      have := isNameChar_of_mem hd.named hin
      cases this
    have hnone : '\n' ∉ d.body := fun hin => by
      rw [hbody] at hin
      apply h
      rw [hl]
      exact List.mem_append_right _ (mem_of_mem_trim hin)
    have hoperator : '\n' ∉ d.operator.text := by cases d.operator <;> simp [Operator.text]
    have hending : '\n' ∉ lineEnding l := by
      unfold lineEnding
      split <;> simp
    rw [layoutLine_of_reads hd, layout_eq]
    by_cases hempty : d.body = [] <;> simp [hempty, hname, hnone, hoperator, hending]

/-! ## The layout of a text -/

theorem lines_layout (t : Text) : (layout t).lines = t.lines.map layoutLine := by
  apply lines_joinLines
  · rw [Ne, List.map_eq_nil_iff]
    exact lines_ne_nil t
  · intro l hl
    obtain ⟨k, hk, rfl⟩ := List.mem_map.mp hl
    exact not_mem_layoutLine (not_mem_of_mem_lines hk)

/-- A text in canonical form is left alone. -/
theorem layout_layout (t : Text) : layout (layout t) = layout t := by
  have hline : layoutLine ∘ layoutLine = layoutLine := funext layoutLine_layoutLine
  rw [layout, lines_layout, List.map_map, hline]
  rfl

theorem getD_layout? (t : Text) : (layout? t).getD t = layout t := by
  unfold layout?
  split
  · next h => exact h.symm
  · rfl

end AbnfServer.Rule
