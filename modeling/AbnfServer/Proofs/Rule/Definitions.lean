-- What it takes for a line to define a rule, and what the table of a text says
-- about a rule: the number of the last line that defines it.
import AbnfServer.Proofs.Text.Lines
import AbnfServer.Rule.Definition

namespace AbnfServer.Rule

open Text

/-! ## Kinds of characters -/

theorem toNat_of_isAlphanum {c : Char} (h : c.isAlphanum = true) :
    48 ≤ c.toNat ∧ c.toNat ≤ 57 ∨ 65 ≤ c.toNat ∧ c.toNat ≤ 90 ∨ 97 ≤ c.toNat ∧ c.toNat ≤ 122 := by
  have hrange : ((65 ≤ c.toNat ∧ c.toNat ≤ 90) ∨ (97 ≤ c.toNat ∧ c.toNat ≤ 122)) ∨
      (48 ≤ c.toNat ∧ c.toNat ≤ 57) := (isAlphanum_iff_range c).mp h
  omega

/-- No blank character can stand in a name. -/
theorem isBlank_of_isNameChar {c : Char} (h : isNameChar c = true) : isBlank c = false := by
  have hrange : c.toNat = 45 ∨ 48 ≤ c.toNat ∧ c.toNat ≤ 122 := by
    rw [isNameChar, Bool.or_eq_true] at h
    rcases h with h | h
    · have := toNat_of_isAlphanum h
      omega
    · rw [beq_iff_eq] at h
      exact Or.inl (congrArg Char.toNat h)
  simp only [isBlank, Bool.or_eq_false_iff, Bool.and_eq_false_iff, decide_eq_false_iff_not,
    beq_eq_false_iff_ne]
  omega

/-- A name does not start with a blank. -/
theorem any_head?_name {n : Text} (hn : isName n = true) (y : Text) : (n ++ y).head?.any isBlank = false := by
  obtain ⟨c, w, rfl, hc⟩ := exists_head_of_isName hn
  exact isBlank_of_isNameChar (isNameChar_of_isAlpha hc)

theorem isNameChar_of_isBlank {c : Char} (h : isBlank c = true) : isNameChar c = false := by
  rw [Bool.eq_false_iff]
  intro hc
  rw [isBlank_of_isNameChar hc] at h
  cases h

/-! ## Lines -/

/-- A line defines a rule when its name and an equals sign stand there, with
blanks in front of each of them. -/
structure Defines (line name : Text) : Prop where
  isName : isName name = true
  reads : ∃ i s r, line = i ++ name ++ s ++ '=' :: r ∧ i.all isBlank = true ∧ s.all isBlank = true

/-- The rule that a line defines. -/
def definedName? (line : Text) : Option Text := (DefinitionLine.read? line).map DefinitionLine.name

variable {l n : Text}

theorem exists_of_readOperator? {t r : Text} {o : Operator}
    (h : DefinitionLine.readOperator? t = some (o, r)) : ∃ r', t = '=' :: r' := by
  unfold DefinitionLine.readOperator? at h
  split at h
  · exact ⟨_, rfl⟩
  · exact ⟨_, rfl⟩
  · cases h

theorem readOperator?_cons (t : Text) : ∃ o, DefinitionLine.readOperator? ('=' :: t) = some o := by
  unfold DefinitionLine.readOperator?
  split
  · exact ⟨_, rfl⟩
  · exact ⟨_, rfl⟩
  · next h => exact absurd rfl (h t)

theorem defines_of_definedName? (h : definedName? l = some n) : Defines l n := by
  obtain ⟨d, hread, rfl⟩ := Option.map_eq_some_iff.mp h
  unfold DefinitionLine.read? at hread
  simp only [Option.bind_eq_bind] at hread
  split at hread
  · cases hread
  · next hname =>
    obtain ⟨⟨o, r⟩, ho, hd⟩ := Option.bind_eq_some_iff.mp hread
    obtain ⟨r', hr'⟩ := exists_of_readOperator? ho
    obtain ⟨e, he, _⟩ := exists_all_dropEndWhile isBlank (trimStart l)
    have hd := Option.some.inj hd
    subst hd
    refine ⟨by simpa using hname, l.indent, indent (l.trim.dropWhile isNameChar), r' ++ e, ?_,
      List.all_takeWhile, List.all_takeWhile⟩
    have hline : l = l.indent ++ (l.trim ++ e) := by
      rw [trim, trimEnd, ← he, indent_append_trimStart]
    have hrest : l.trim.dropWhile isNameChar =
        indent (l.trim.dropWhile isNameChar) ++ '=' :: r' := by
      rw [← hr', indent_append_trimStart]
    have htrim := List.takeWhile_append_dropWhile (p := isNameChar) (l := l.trim)
    rw [hrest] at htrim
    rw [← htrim] at hline
    simpa using hline

theorem definedName?_of_defines (h : Defines l n) : definedName? l = some n := by
  obtain ⟨hname, i, s, r, rfl, hi, hs⟩ := h
  have hchars : n.all isNameChar = true := List.all_eq_true.mpr fun c hc => isNameChar_of_mem hname hc
  have hstop (y : Text) : (s ++ '=' :: y).head?.any isNameChar = false := by
    cases s with
    | nil => rfl
    | cons c s =>
      rw [List.all_cons, Bool.and_eq_true] at hs
      exact isNameChar_of_isBlank hs.1
  obtain ⟨z, hz⟩ := dropEndWhile_append_cons (p := isBlank) (n ++ s) r (c := '=') rfl
  have htrim : trim (i ++ n ++ s ++ '=' :: r) = n ++ (s ++ '=' :: z) := by
    have hstart := (takeWhile_append_stop hi (any_head?_name hname (s ++ '=' :: r))).2
    simp only [List.append_assoc] at hstart hz ⊢
    rw [trim, trimStart, hstart, trimEnd, hz]
  obtain ⟨hrun, hrest⟩ := takeWhile_append_stop hchars (hstop z)
  have hequals : trimStart (s ++ '=' :: z) = '=' :: z := (takeWhile_append_stop hs rfl).2
  obtain ⟨o, ho⟩ := readOperator?_cons z
  simp only [definedName?, DefinitionLine.read?, htrim, hrun, hrest, hequals, hname, ho,
    Option.bind_eq_bind, Option.bind_some, Bool.not_true, Bool.false_eq_true, if_false]
  rfl

/-- The lines that define a rule, told without the reader. -/
theorem definedName?_iff : definedName? l = some n ↔ Defines l n :=
  ⟨defines_of_definedName?, definedName?_of_defines⟩

theorem Defines.unique {n' : Text} (h : Defines l n) (h' : Defines l n') : n = n' := by
  rw [← definedName?_iff] at h h'
  rw [h] at h'
  exact Option.some.inj h'

/-! ## The last line that defines a rule -/

/-- The last of the lines that defines a rule, when the first one has number `i`. -/
def lastFrom (n : Text) : Nat → List (Option Text) → Option Nat
  | _, [] => none
  | i, d :: ds => (lastFrom n (i + 1) ds).or (if d = some n then some i else none)

/-- Which rule each line of a text defines. -/
def definedNames (t : Text) : List (Option Text) := t.lines.map definedName?

/-- The line on which a table has a rule. -/
def SymbolTable.line? (table : SymbolTable) (n : Text) : Option UInt32 :=
  (table.get? n).map fun l => l.range.start.line

theorem line?_foldl_insert (uri : String) (i : Nat) (ls : List Text) (table : SymbolTable) (n : Text) :
    SymbolTable.line? ((definitionSites uri i ls).foldl (fun table e => table.insert e.1 e.2) table) n =
      ((lastFrom n i (ls.map definedName?)).map UInt32.ofNat).or (table.line? n) := by
  induction ls generalizing i table with
  | nil => rfl
  | cons l ls ih =>
    rw [List.map_cons, lastFrom, definitionSites, definedName?]
    cases DefinitionLine.read? l with
    | none =>
      simp only [Option.map_none]
      rw [ih]
      simp
    | some d =>
      simp only [Option.map_some, List.foldl_cons]
      rw [ih, SymbolTable.line?, Dict.get?_insert]
      by_cases hn : n = d.name
      · subst hn
        cases lastFrom d.name (i + 1) (ls.map definedName?) <;> simp [DefinitionLine.nameRange, Position.ofNat]
      · have hd : ¬ some d.name = some n := fun h => hn (Option.some.inj h).symm
        simp [hn, hd, SymbolTable.line?]

/-- The table of a text has each rule on the last line that defines it. -/
theorem line?_scanDefinitions (uri : String) (t n : Text) :
    (scanDefinitions uri t).line? n = (lastFrom n 0 (definedNames t)).map UInt32.ofNat := by
  have h := line?_foldl_insert uri 0 t.lines ∅ n
  rw [scanDefinitions, h]
  have hnone : SymbolTable.line? ∅ n = none := rfl
  rw [hnone, Option.or_none]
  rfl

theorem getElem?_of_lastFrom {i j : Nat} {ds : List (Option Text)} (h : lastFrom n i ds = some j) :
    i ≤ j ∧ ds[j - i]? = some (some n) := by
  induction ds generalizing i with
  | nil => cases h
  | cons d ds ih =>
    rw [lastFrom] at h
    rcases Option.or_eq_some_iff.mp h with h | ⟨_, h⟩
    · obtain ⟨hle, hget⟩ := ih h
      have hstep : j - i = (j - (i + 1)) + 1 := by omega
      rw [hstep, List.getElem?_cons_succ]
      exact ⟨by omega, hget⟩
    · split at h
      · next hd =>
        have hj := Option.some.inj h
        subst hj
        rw [Nat.sub_self, hd]
        exact ⟨Nat.le_refl i, rfl⟩
      · cases h

theorem lastFrom_eq_none_iff {i : Nat} {ds : List (Option Text)} :
    lastFrom n i ds = none ↔ some n ∉ ds := by
  induction ds generalizing i with
  | nil => simp [lastFrom]
  | cons d ds ih =>
    rw [lastFrom, Option.or_eq_none_iff, ih, List.mem_cons, not_or]
    by_cases hd : d = some n
    · simp [hd]
    · simp [hd, eq_comm (a := some n)]

theorem contains_iff_line? (table : SymbolTable) (n : Text) :
    table.contains n = true ↔ table.line? n ≠ none := by
  rw [Dict.contains, SymbolTable.line?]
  cases table.get? n <;> simp

theorem contains_scanDefinitions (uri : String) (t n : Text) :
    (scanDefinitions uri t).contains n = true ↔ some n ∈ definedNames t := by
  rw [contains_iff_line?, line?_scanDefinitions, ne_eq, Option.map_eq_none_iff, lastFrom_eq_none_iff,
    Decidable.not_not]

theorem isName_of_mem_definedNames {t : Text} (h : some n ∈ definedNames t) : isName n = true := by
  obtain ⟨l, _, hl⟩ := List.mem_map.mp h
  exact (definedName?_iff.mp hl).isName

/-- When other lines define a rule just where these define `m`, it is last on the same line. -/
theorem lastFrom_map {m : Text} {ds : List (Option Text)} {f : Option Text → Option Text}
    (h : ∀ d ∈ ds, f d = some n ↔ d = some m) (i : Nat) :
    lastFrom n i (ds.map f) = lastFrom m i ds := by
  induction ds generalizing i with
  | nil => rfl
  | cons d ds ih =>
    have hhead := h d List.mem_cons_self
    rw [List.map_cons, lastFrom, lastFrom, ih (fun e he => h e (List.mem_cons_of_mem _ he))]
    simp only [hhead]

end AbnfServer.Rule
