-- The table of a text, line by line: it has a rule where the last line that defines it
-- has its name. Which lines these are is told without the reader of lines.
import AbnfServer.Proofs.Rule.Layout
import Mathlib.Data.List.Induction

namespace AbnfServer.Rule

open Text

variable {uri : String} {l n t indent x y : Text} {ls : List Text} {i j : Nat}
  {d e : DefinitionLine} {loc : Location}

/-! ## The last line that defines a rule -/

/-- Of these lines, the one of number `i` is the last that defines a rule, and it can be
taken apart to `d`. -/
structure LastDefinition (ls : List Text) (n : Text) (i : Nat) (d : DefinitionLine) : Prop where
  reads : ∃ l, ls[i]? = some l ∧ Reads l d
  named : d.name = n
  last : ∀ j l, ls[j]? = some l → Defines l n → j ≤ i

theorem Reads.unique (h : Reads l d) (h' : Reads l e) : d = e := by
  rw [← read?_iff] at h h'
  exact Option.some.inj (h.symm.trans h')

theorem getElem?_concat_eq_some {k : Text} :
    (ls ++ [l])[j]? = some k ↔ ls[j]? = some k ∨ j = ls.length ∧ l = k := by
  rcases Nat.lt_trichotomy j ls.length with hlt | rfl | hgt
  · rw [List.getElem?_append_left hlt]
    simp [Nat.ne_of_lt hlt]
  · simp
  · have hnone : ls[j]? = none := List.getElem?_eq_none (Nat.le_of_lt hgt)
    have hnone' : (ls ++ [l])[j]? = none := List.getElem?_eq_none (by rwa [List.length_append])
    simp [hnone, hnone', Nat.ne_of_gt hgt]

/-- A line more that defines the rule is the last one. -/
theorem lastDefinition_concat_of_reads (hl : Reads l e) (hn : e.name = n) :
    LastDefinition (ls ++ [l]) n i d ↔ i = ls.length ∧ d = e := by
  have hdefines : Defines l n := defines_iff_reads.mpr ⟨e, hl, hn⟩
  constructor
  · rintro ⟨⟨k, hk, hreads⟩, _, hlast⟩
    -- the new line defines the rule too, so the last one cannot be an earlier one
    have hle := hlast ls.length l (by simp) hdefines
    rcases getElem?_concat_eq_some.mp hk with hearlier | ⟨hi, rfl⟩
    · have hlt := (List.getElem?_eq_some_iff.mp hearlier).1
      omega
    · exact ⟨hi, hreads.unique hl⟩
  · rintro ⟨rfl, rfl⟩
    refine ⟨⟨l, by simp, hl⟩, hn, ?_⟩
    intro j k hk _
    rcases getElem?_concat_eq_some.mp hk with hearlier | ⟨rfl, _⟩
    · exact Nat.le_of_lt (List.getElem?_eq_some_iff.mp hearlier).1
    · exact Nat.le_refl _

/-- A line more that does not define the rule makes no difference. -/
theorem lastDefinition_concat_of_not_defines (hl : ¬ Defines l n) :
    LastDefinition (ls ++ [l]) n i d ↔ LastDefinition ls n i d := by
  constructor
  · rintro ⟨⟨k, hk, hreads⟩, hn, hlast⟩
    rcases getElem?_concat_eq_some.mp hk with hearlier | ⟨_, rfl⟩
    · exact ⟨⟨k, hearlier, hreads⟩, hn, fun j m hm => hlast j m (getElem?_concat_eq_some.mpr (Or.inl hm))⟩
    · exact absurd (defines_iff_reads.mpr ⟨d, hreads, hn⟩) hl
  · rintro ⟨⟨k, hk, hreads⟩, hn, hlast⟩
    refine ⟨⟨k, getElem?_concat_eq_some.mpr (Or.inl hk), hreads⟩, hn, ?_⟩
    intro j m hm hdefines
    rcases getElem?_concat_eq_some.mp hm with hearlier | ⟨_, rfl⟩
    · exact hlast j m hearlier hdefines
    · exact absurd hdefines hl

/-! ## The entries of a table -/

theorem definitionSites_append (uri : String) (k : Nat) (ls ms : List Text) :
    definitionSites uri k (ls ++ ms) = definitionSites uri k ls ++ definitionSites uri (k + ls.length) ms := by
  induction ls generalizing k with
  | nil => rfl
  | cons l ls ih =>
    have hnumber : k + (l :: ls).length = k + 1 + ls.length := by
      rw [List.length_cons]
      omega
    rw [List.cons_append, definitionSites, definitionSites, ih, hnumber]
    cases DefinitionLine.read? l <;> rfl

/-- Each line that defines a rule overwrites what the table had of that rule, so the
last one is left. -/
theorem get?_foldl_sites_iff :
    ((definitionSites uri 0 ls).foldl (fun table e => table.insert e.1 e.2)
      (∅ : SymbolTable)).get? n = some loc ↔
      ∃ i d, LastDefinition ls n i d ∧ loc = ⟨uri, d.nameRange i⟩ := by
  induction ls using List.reverseRecOn with
  | nil =>
    constructor
    · intro h
      cases h
    · rintro ⟨i, d, ⟨⟨l, hl, _⟩, _, _⟩, _⟩
      cases hl
  | append_singleton ls l ih =>
    rw [definitionSites_append, List.foldl_append, Nat.zero_add, definitionSites]
    cases hread : DefinitionLine.read? l with
    | none =>
      have hother : ¬ Defines l n := by
        rw [← definedName?_iff, definedName?, hread]
        simp
      simp only [lastDefinition_concat_of_not_defines hother]
      exact ih
    | some e =>
      have hreads := read?_iff.mp hread
      simp only [definitionSites, List.foldl_cons, List.foldl_nil, Dict.get?_insert]
      by_cases hn : n = e.name
      · simp only [lastDefinition_concat_of_reads hreads hn.symm, if_pos hn, Option.some.injEq]
        constructor
        · rintro rfl
          exact ⟨_, e, ⟨rfl, rfl⟩, rfl⟩
        · rintro ⟨i, d, ⟨rfl, rfl⟩, rfl⟩
          rfl
      · have hother : ¬ Defines l n := by
          rw [← definedName?_iff, definedName?, hread]
          exact fun h => hn (Option.some.inj h).symm
        simp only [lastDefinition_concat_of_not_defines hother, if_neg hn]
        exact ih

theorem get?_scanDefinitions_iff : (scanDefinitions uri t).get? n = some loc ↔
    ∃ i d, LastDefinition t.lines n i d ∧ loc = ⟨uri, d.nameRange i⟩ :=
  get?_foldl_sites_iff

/-! ## Lines that define a rule -/

/-- The class `[A-Za-z]`. -/
def Letter (c : Char) : Prop := ('A' ≤ c ∧ c ≤ 'Z') ∨ ('a' ≤ c ∧ c ≤ 'z')

/-- The class `[A-Za-z0-9-]`. -/
def NameChar (c : Char) : Prop := Letter c ∨ ('0' ≤ c ∧ c ≤ '9') ∨ c = '-'

/-- A letter, and behind it the longest run of name characters. -/
structure LongestName (n rest : Text) : Prop where
  starts : ∃ c w, n = c :: w ∧ Letter c ∧ ∀ b ∈ w, NameChar b
  longest : ∀ c ∈ rest.head?, ¬ NameChar c

/-- A line is this text between its indentation and the blanks at its end. -/
structure TrimsTo (l indent said : Text) : Prop where
  cut : ∃ trailing, l = indent ++ said ++ trailing ∧ trailing.all isBlank = true
  blank : indent.all isBlank = true
  trimmed : Trimmed said

/-- What is no comment and defines a rule: the longest name, blanks if any, an equals
sign, and whatever follows. -/
structure Says (said n : Text) : Prop where
  comment : said.head? ≠ some ';'
  parts : ∃ gap rest, said = n ++ gap ++ '=' :: rest ∧ gap.all isBlank = true ∧
    LongestName n (gap ++ '=' :: rest)

/-- A line that defines a rule behind its indentation. -/
def DefinitionAt (l indent n : Text) : Prop := ∃ said, TrimsTo l indent said ∧ Says said n

theorem isNameChar_iff (c : Char) : isNameChar c = true ↔ NameChar c := by
  rw [isNameChar, Bool.or_eq_true, isAlphanum_iff_range, beq_iff_eq, or_assoc]
  rfl

theorem isName_iff_starts : isName n = true ↔ ∃ c w, n = c :: w ∧ Letter c ∧ ∀ b ∈ w, NameChar b := by
  cases n with
  | nil => simp [isName]
  | cons c w => simp [isName, isAlpha_iff_range, isNameChar_iff, Letter]

theorem any_getLast?_append {p : Char → Bool} (hx : x.getLast?.any p = false) (hy : y.getLast?.any p = false) :
    (x ++ y).getLast?.any p = false := by
  rw [List.getLast?_append]
  cases hlast : y.getLast? with
  | none => exact hx
  | some c =>
    rw [hlast] at hy
    exact hy

theorem Operator.exists_text (o : Operator) : ∃ s, o.text = '=' :: s := by
  cases o with
  | defines => exact ⟨[], rfl⟩
  | «extends» => exact ⟨['/'], rfl⟩

/-- The indentation ends where the name starts. -/
theorem indent_of_name (hn : isName n = true) (hblank : indent.all isBlank = true) (y : Text) :
    Text.indent (indent ++ (n ++ y)) = indent :=
  (takeWhile_append_stop hblank (any_head?_name hn y)).1

theorem Reads.definitionAt (h : Reads l d) : DefinitionAt l d.indent d.name := by
  obtain ⟨gap, r, hl, hgap, _, _⟩ := h.parts
  obtain ⟨trailing, hr, htrailing⟩ := exists_all_dropEndWhile isBlank r
  obtain ⟨s, hs⟩ := d.operator.exists_text
  have hstop : (gap ++ '=' :: (s ++ trimEnd r)).head?.any isNameChar = false := by
    cases gap with
    | nil => rfl
    | cons b gap => exact isNameChar_of_isBlank (List.all_eq_true.mp hgap b List.mem_cons_self)
  have hsaid : d.name ++ gap ++ '=' :: (s ++ trimEnd r) = d.name ++ gap ++ d.operator.text ++ trimEnd r := by
    simp [hs]
  refine ⟨d.name ++ gap ++ '=' :: (s ++ trimEnd r), ⟨⟨trailing, ?_, htrailing⟩, h.indent, ?_, ?_⟩, ?_,
    gap, s ++ trimEnd r, rfl, hgap, isName_iff_starts.mp h.named, ?_⟩
  · have hrest : trimEnd r ++ trailing = r := hr.symm
    rw [hsaid, hl]
    simp only [List.append_assoc, hrest]
  · rw [List.append_assoc]
    exact any_head?_name h.named _
  · rw [hsaid]
    exact any_getLast?_append (any_getLast?_operator _ _) (any_getLast?_dropEndWhile isBlank r)
  · intro hcomment
    obtain ⟨c, w, hcw, hc⟩ := exists_head_of_isName h.named
    rw [hcw] at hcomment
    cases hcomment
    cases hc
  · intro c hc hname
    rw [Option.mem_def] at hc
    rw [hc, Option.any_some, (isNameChar_iff c).mpr hname] at hstop
    cases hstop

/-- The lines that define a rule are those that can be taken apart to a definition of it. -/
theorem definitionAt_iff : DefinitionAt l indent n ↔ ∃ d, Reads l d ∧ d.indent = indent ∧ d.name = n := by
  constructor
  · rintro ⟨said, ⟨⟨trailing, hl, _⟩, hblank, _⟩, ⟨_, gap, rest, hsaid, hgap, hname⟩⟩
    have hn := isName_iff_starts.mpr hname.starts
    have hline : l = indent ++ n ++ gap ++ '=' :: (rest ++ trailing) := by simp [hl, hsaid]
    obtain ⟨d, hreads, rfl⟩ := defines_iff_reads.mp ⟨hn, indent, gap, rest ++ trailing, hline, hblank, hgap⟩
    refine ⟨d, hreads, ?_, rfl⟩
    obtain ⟨gap', r, hparts, _⟩ := hreads.parts
    have hfirst := indent_of_name hn hblank (gap ++ '=' :: (rest ++ trailing))
    have hsecond := indent_of_name hn hreads.indent (gap' ++ d.operator.text ++ r)
    simp only [List.append_assoc] at hline hparts hfirst hsecond
    rw [← hline] at hfirst
    rw [← hparts] at hsecond
    exact hsecond.symm.trans hfirst
  · rintro ⟨d, hreads, rfl, rfl⟩
    exact hreads.definitionAt

/-- Line `i` of the text defines the rule, behind its indentation. -/
def DefinitionOn (t n indent : Text) (i : Nat) : Prop :=
  ∃ before l after, LineAt t i before l after ∧ DefinitionAt l indent n

theorem definitionOn_iff : DefinitionOn t n indent i ↔
    ∃ l d, t.lines[i]? = some l ∧ Reads l d ∧ d.indent = indent ∧ d.name = n := by
  constructor
  · rintro ⟨before, l, after, hat, hdef⟩
    obtain ⟨d, hd⟩ := definitionAt_iff.mp hdef
    exact ⟨l, d, hat.getElem?, hd⟩
  · rintro ⟨l, d, hline, hd⟩
    obtain ⟨before, after, hat⟩ := exists_lineAt hline
    exact ⟨before, l, after, hat, definitionAt_iff.mpr ⟨d, hd⟩⟩

/-- A table has the rules that some line defines. -/
theorem contains_scanDefinitions_iff (uri : String) (t n : Text) :
    (scanDefinitions uri t).contains n = true ↔ ∃ i indent, DefinitionOn t n indent i := by
  rw [contains_scanDefinitions, definedNames, List.mem_map]
  constructor
  · rintro ⟨l, hl, hdef⟩
    obtain ⟨i, hi⟩ := List.mem_iff_getElem?.mp hl
    obtain ⟨d, hreads, hn⟩ := defines_iff_reads.mp (definedName?_iff.mp hdef)
    exact ⟨i, d.indent, definitionOn_iff.mpr ⟨l, d, hi, hreads, rfl, hn⟩⟩
  · rintro ⟨i, indent, hdef⟩
    obtain ⟨l, d, hi, hreads, _, hn⟩ := definitionOn_iff.mp hdef
    exact ⟨l, List.mem_of_getElem? hi, definedName?_iff.mpr (defines_iff_reads.mpr ⟨d, hreads, hn⟩)⟩

namespace LastDefinition

theorem on (h : LastDefinition t.lines n i d) : DefinitionOn t n d.indent i := by
  obtain ⟨l, hline, hreads⟩ := h.reads
  exact definitionOn_iff.mpr ⟨l, d, hline, hreads, rfl, h.named⟩

theorem le (h : LastDefinition t.lines n i d) (hdef : DefinitionOn t n indent j) : j ≤ i := by
  obtain ⟨l, e, hline, hreads, _, hn⟩ := definitionOn_iff.mp hdef
  exact h.last j l hline (defines_iff_reads.mpr ⟨e, hreads, hn⟩)

/-- A line defines one rule. -/
theorem unique {m : Text} (h : LastDefinition t.lines n i d) (h' : LastDefinition t.lines m i e) : d = e := by
  obtain ⟨l, hline, hreads⟩ := h.reads
  obtain ⟨l', hline', hreads'⟩ := h'.reads
  rw [hline, Option.some.injEq] at hline'
  subst hline'
  exact hreads.unique hreads'

theorem lt_length (h : LastDefinition t.lines n i d) : i < t.lines.length := by
  obtain ⟨l, hline, _⟩ := h.reads
  exact (List.getElem?_eq_some_iff.mp hline).1

end LastDefinition

end AbnfServer.Rule
