-- Which words a rename edits. A word of the text is an occurrence for the word
-- search unless a low line stands at one of its ends, and for the bracket search when
-- it has brackets around it; between them the two searches see it nowhere else.
import AbnfServer.Proofs.Document.Words
import AbnfServer.Proofs.Rule.Coverage
import AbnfServer.Proofs.Rule.RenamedLines

namespace AbnfServer.Rule

open Text

variable {a b g v t name : Text} {h k : Hit}

/-! ## The ends of words -/

/-- A run of name characters that reaches the start of a word starts with it. -/
theorem Stands.start_eq (h : Stands t a name b) {c : Text} (hcut : t = g ++ v ++ c)
    (hv : ∀ d ∈ v, isNameChar d = true) (hle : g.bytes ≤ a.bytes)
    (hend : a.bytes ≤ (g ++ v).bytes) : g = a := by
  have hsame : g ++ (v ++ c) = a ++ (name ++ b) := by
    rw [← List.append_assoc, ← hcut, h.cut, List.append_assoc]
  obtain ⟨m, rfl, hm⟩ := append_of_bytes_le hsame hle
  rw [bytes_append, bytes_append] at hend
  obtain ⟨m', rfl, _⟩ := append_of_bytes_le hm.symm (Nat.le_of_add_le_add_left hend)
  cases hlast : m.getLast? with
  | none =>
    rw [List.getLast?_eq_none_iff.mp hlast, List.append_nil]
  | some d =>
    -- the last character in front of the word would be one of the run
    have hd := hv d (List.mem_append_left m' (List.mem_of_getLast? hlast))
    have hleft := h.left
    rw [List.getLast?_append, hlast, Option.some_or, Option.any_some, hd] at hleft
    cases hleft

/-- Next to a word, the only character of the word search is the low line. -/
theorem any_isWordChar_iff {o : Option Char} (ho : o.any isNameChar = false) :
    o.any isWordChar = true ↔ o = some '_' := by
  cases o with
  | none => simp
  | some c =>
    have halphanum : c.isAlphanum = false := by
      rw [Option.any_some, isNameChar, Bool.or_eq_false_iff] at ho
      exact ho.1
    simp [isWordChar, halphanum]

theorem any_isWordChar_getLast? (hname : isName name = true) :
    name.getLast?.any isWordChar = false ↔ name.getLast? = some '-' := by
  cases hlast : name.getLast? with
  | none => exact absurd (List.getLast?_eq_none_iff.mp hlast) (ne_nil_of_isName hname)
  | some c =>
    have hc := isNameChar_of_mem hname (List.mem_of_getLast? hlast)
    rw [Option.any_some, Option.some.injEq]
    constructor
    · exact eq_hyphen hc
    · rintro rfl
      rfl

/-- Whether the word search sees a word where it stands. -/
theorem Stands.startsAt_iff (h : Stands t a name b) (hname : isName name = true) :
    (Search.ofName name false).startsAt a.getLast? (name ++ b) = true ↔
      a.getLast? ≠ some '_' ∧ (b.head? = some '_' ↔ name.getLast? = some '-') := by
  have hstarts := Search.startsAt_pattern (Search.ofName name false) a.getLast? b
  obtain ⟨c, w, hcw, hc⟩ := exists_head_of_isName hname
  have hhead : name.head?.any isWordChar = true := by
    rw [hcw]
    exact isWordChar_of_isAlpha hc
  have hleft := any_isWordChar_iff h.left
  have hright := any_isWordChar_iff h.right
  have hlast := any_isWordChar_getLast? hname
  simp only [Search.ofName, Bool.false_eq_true, if_false, isBoundary, hhead] at hstarts ⊢
  rw [hstarts, ne_eq, ← hleft, ← hright, ← hlast]
  cases a.getLast?.any isWordChar <;> cases b.head?.any isWordChar <;>
    cases name.getLast?.any isWordChar <;> decide

/-! ## The occurrences at a word -/

theorem mem_hits_iff {offset : Nat} {bracketed : Bool} :
    (⟨offset, bracketed⟩ : Hit) ∈ hits name t ↔
      offset ∈ (Search.ofName name bracketed).offsets t := by
  cases bracketed <;> simp [hits]

/-- A place at which the pattern stands is found, unless one that starts before it
reaches over it. -/
theorem mem_hits_of_startsAt (hname : isName name = true) {bracketed : Bool}
    (hcut : t = a ++ (Search.ofName name bracketed).pattern ++ b)
    (hstarts : (Search.ofName name bracketed).startsAt a.getLast?
      ((Search.ofName name bracketed).pattern ++ b) = true)
    (hfree : ∀ g c, t = g ++ (Search.ofName name bracketed).pattern ++ c → g.bytes < a.bytes →
      ¬ a.bytes < (g ++ (Search.ofName name bracketed).pattern).bytes) :
    (⟨a.bytes, bracketed⟩ : Hit) ∈ hits name t := by
  have hp := pattern_ne_nil (ne_nil_of_isName hname) bracketed
  have hfinds := Search.finds_offsets hp t
  rw [mem_hits_iff]
  rcases hfinds.complete hp hcut hstarts with hfound | ⟨o, ho, hlt, hover⟩
  · exact hfound
  · obtain ⟨g, c, hg, rfl, _⟩ := hfinds.sound ho
    rw [List.nil_append] at hlt hover
    rw [← bytes_append] at hover
    exact absurd hover (hfree g c hg hlt)

theorem Stands.mem_hits_bare (h : Stands t a name b) (hname : isName name = true) :
    (⟨a.bytes, false⟩ : Hit) ∈ hits name t ↔
      a.getLast? ≠ some '_' ∧ (b.head? = some '_' ↔ name.getLast? = some '-') := by
  rw [← h.startsAt_iff hname]
  constructor
  · intro hmem
    obtain ⟨g, c, hlies, ho, hstarts⟩ := Hit.lies (ne_nil_of_isName hname) _ hmem
    rw [pattern_bare rfl] at hlies hstarts
    have hsame : g ++ (name ++ c) = a ++ (name ++ b) := by
      rw [← List.append_assoc, ← hlies, h.cut, List.append_assoc]
    obtain ⟨rfl, hrest⟩ := append_of_bytes_eq hsame ho.symm
    rwa [List.append_cancel_left hrest] at hstarts
  · intro hstarts
    apply mem_hits_of_startsAt hname h.cut hstarts
    intro g c hcut hlt hover
    have heq := h.start_eq hcut h.chars (Nat.le_of_lt hlt) (Nat.le_of_lt hover)
    rw [heq] at hlt
    exact Nat.lt_irrefl _ hlt

theorem Stands.mem_hits_bracketed (h : Stands t (g ++ ['<']) name b) (hname : isName name = true) :
    (⟨g.bytes, true⟩ : Hit) ∈ hits name t ↔ b.head? = some '>' := by
  have hpattern : (Search.ofName name true).pattern = ['<'] ++ name ++ ['>'] := rfl
  constructor
  · intro hmem
    obtain ⟨x, c, hlies, ho, _⟩ := Hit.lies (ne_nil_of_isName hname) _ hmem
    rw [pattern_bracketed rfl] at hlies
    have hsame : x ++ (['<'] ++ name ++ ['>'] ++ c) = g ++ (['<'] ++ name ++ b) := by
      rw [← List.append_assoc, ← hlies, h.cut]
      simp only [List.append_assoc]
    obtain ⟨rfl, hrest⟩ := append_of_bytes_eq hsame ho.symm
    rw [List.append_assoc] at hrest
    rw [← List.append_cancel_left hrest]
    rfl
  · intro hhead
    obtain ⟨c, rfl⟩ := List.head?_eq_some_iff.mp hhead
    have hcut : t = g ++ (Search.ofName name true).pattern ++ c := by
      rw [hpattern, h.cut]
      simp
    apply mem_hits_of_startsAt hname hcut
    · rw [Search.startsAt_pattern]
      rfl
    · -- the opening bracket would stand in a name, or be the closing one
      intro x d hx hlt hover
      have hopen : bytes ['<'] = 1 := rfl
      have hmem : '<' ∈ name ++ ['>'] := by
        apply mem_of_bytes_lt (show x ++ ['<'] ++ (name ++ ['>']) ++ d = g ++ '<' :: (name ++ '>' :: c) by
          have hboth := hx.symm.trans h.cut
          simpa [hpattern] using hboth)
        · rw [bytes_append, hopen]
          exact hlt
        · simpa [hpattern] using hover
      rw [List.mem_append, List.mem_singleton] at hmem
      rcases hmem with hmem | hmem
      · exact absurd (h.chars _ hmem) (by decide)
      · exact absurd hmem (by decide)

/-! ## What the edits cover -/

section Edits

variable (ht : t.Addressable) (hname : isName name = true)

include ht hname

theorem Stands.covers_iff (h : Stands t a name b) (hk : k ∈ hits name t) :
    (k.range name t).Covers ⟨a.position, (a ++ name).position⟩ ↔
      k.offset ≤ a.bytes ∧ (a ++ name).bytes ≤ k.stop name := by
  obtain ⟨x, y, hlies, ho, _⟩ := k.lies (ne_nil_of_isName hname) hk
  have hcut : t = a ++ (name ++ b) := by rw [h.cut, List.append_assoc]
  have hlies' : t = x ++ (k.pattern name ++ y) := by rw [hlies, List.append_assoc]
  rw [Hit.range_eq hlies ho, Range.Covers, LineIndex.position_le_iff ht hlies' hcut,
    LineIndex.position_le_iff ht h.cut hlies, Hit.stop, ho, bytes_append x]

omit ht in
/-- A found place that takes in a word has just this word as its name. -/
theorem Stands.inner_eq (h : Stands t a name b) (hk : k ∈ hits name t) (hle : k.offset ≤ a.bytes)
    (hend : (a ++ name).bytes ≤ k.stop name) : k.inner = a.bytes := by
  rw [bytes_append] at hend
  by_cases hb : k.bracketed = true
  · obtain ⟨x, y, hlies, ho, _⟩ := k.lies (ne_nil_of_isName hname) hk
    have hinner := inner_bracketed hb
    have hpos := bytes_pos (ne_nil_of_isName hname)
    have hopen : bytes ['<'] = 1 := rfl
    rw [stop_bracketed hb] at hend
    rw [pattern_bracketed hb] at hlies
    have hword : Stands t (x ++ ['<']) name ('>' :: y) := by
      refine ⟨by simp [hlies], h.chars, ?_, rfl⟩
      rw [List.getLast?_append]
      rfl
    have hstart : (x ++ ['<']).bytes = k.inner := by
      rw [bytes_append]
      omega
    rw [← hstart] at hend ⊢
    rcases Nat.le_total (x ++ ['<']).bytes a.bytes with hbefore | hbehind
    · rw [h.start_eq hword.cut h.chars hbefore (by rw [bytes_append]; omega)]
    · rw [hword.start_eq h.cut h.chars hbehind (by rw [bytes_append a]; omega)]
  · rw [Bool.not_eq_true] at hb
    rw [stop_bare hb] at hend
    rw [inner_bare hb] at hend ⊢
    omega

/-- Where a word has to stand for the edits of a rename to reach it: the word search
sees it and no edit ends where it starts, or it has brackets around it and no edit
ends where they start, unless its name is a word to its end. -/
def Reaches (edits : List Edit) (before word after : Text) : Prop :=
  (before.getLast? ≠ some '_' ∧ (after.head? = some '_' ↔ word.getLast? = some '-') ∧
      ¬ ∃ e ∈ edits, e.range.stop = before.position) ∨
    (before.getLast? = some '<' ∧ after.head? = some '>' ∧
      (word.getLast? ≠ some '-' ∨
        ¬ ∃ e ∈ edits, e.range.stop = ⟨before.position.line, before.position.character - 1⟩))

omit ht in
/-- The found places whose name is a word are two: the word, and its brackets. -/
theorem Stands.hit_cases (h : Stands t a name b) (hk : k ∈ hits name t) (hinner : k.inner = a.bytes) :
    k = ⟨a.bytes, false⟩ ∨ ∃ g, a = g ++ ['<'] ∧ k = ⟨g.bytes, true⟩ := by
  obtain ⟨offset, bracketed⟩ := k
  cases bracketed with
  | false =>
    left
    rw [← hinner]
    rfl
  | true =>
    right
    obtain ⟨x, y, hlies, ho, _⟩ := Hit.lies (ne_nil_of_isName hname) _ hk
    rw [pattern_bracketed rfl] at hlies
    have hsame : a ++ (name ++ b) = x ++ ['<'] ++ (name ++ '>' :: y) := by
      rw [← List.append_assoc, ← h.cut, hlies]
      simp
    have hstart : a.bytes = (x ++ ['<']).bytes := by
      rw [bytes_append, ← ho, ← hinner]
      rfl
    refine ⟨x, (append_of_bytes_eq hsame hstart).1, ?_⟩
    rw [← ho]

/-- A word that is found is edited unless an edit ends where the found place starts,
or else with the brackets around it. -/
theorem Stands.covered_of_hit (h : Stands t a name b) (uri : String) (newName : Text)
    (hk : k ∈ hits name t) (hinner : k.inner = a.bytes) :
    (∃ e ∈ planEdits t (scanReferences uri t name) newName,
        e.range.Covers ⟨a.position, (a ++ name).position⟩) ↔
      (¬ ∃ e ∈ planEdits t (scanReferences uri t name) newName, e.range.stop = (k.range name t).start) ∨
        k.bracketed = true ∧ name.getLast? ≠ some '-' := by
  have hne := ne_nil_of_isName hname
  have hmem : (⟨⟨uri, k.range name t⟩, k.bracketed⟩ : Reference) ∈ scanReferences uri t name := by
    rw [scanReferences_hits uri t hne]
    exact List.mem_map.mpr ⟨k, hk, rfl⟩
  obtain ⟨x, y, hcut, hx, hrange⟩ := k.inner_lies hne uri hk
  have hsame : x ++ (name ++ y) = a ++ (name ++ b) := by
    rw [← List.append_assoc, ← hcut, h.cut, List.append_assoc]
  obtain ⟨rfl, _⟩ := append_of_bytes_eq hsame (hx.symm.trans hinner)
  have hcovers := planEdits_covers_iff ht hname uri newName hmem
  rwa [hrange] at hcovers

omit ht hname in
theorem Stands.start_brackets (h : Stands t (g ++ ['<']) name b) (hclose : b.head? = some '>') :
    (Hit.range name t ⟨g.bytes, true⟩).start =
      ⟨(g ++ ['<']).position.line, (g ++ ['<']).position.character - 1⟩ := by
  obtain ⟨c, rfl⟩ := List.head?_eq_some_iff.mp hclose
  have hcut : t = g ++ Hit.pattern name ⟨g.bytes, true⟩ ++ c := by
    rw [pattern_bracketed rfl, h.cut]
    simp
  rw [Hit.range_eq hcut rfl, position_push g rfl]
  simp

/-- The words that a rename edits. -/
theorem Stands.covered_iff (h : Stands t a name b) (uri : String) (newName : Text) :
    (∃ e ∈ planEdits t (scanReferences uri t name) newName,
        e.range.Covers ⟨a.position, (a ++ name).position⟩) ↔
      Reaches (planEdits t (scanReferences uri t name) newName) a name b := by
  have hbare : (Hit.range name t ⟨a.bytes, false⟩).start = a.position := by
    rw [Hit.range_eq h.cut rfl]
  constructor
  · intro hcovered
    obtain ⟨k, hk, hinner⟩ : ∃ k ∈ hits name t, k.inner = a.bytes := by
      obtain ⟨chosen, hchosen, hplan⟩ := planEdits_chosen ht hname
      rw [hplan] at hcovered
      obtain ⟨e, he, hcovers⟩ := hcovered
      obtain ⟨k, hk, rfl⟩ := List.mem_map.mp he
      have hmem := hchosen.subset k hk
      obtain ⟨hle, hend⟩ := (h.covers_iff ht hname hmem).mp hcovers
      exact ⟨k, hmem, h.inner_eq hname hmem hle hend⟩
    have hfree := (h.covered_of_hit ht hname uri newName hk hinner).mp hcovered
    rcases h.hit_cases hname hk hinner with rfl | ⟨g, rfl, rfl⟩
    · obtain ⟨hlow, hhyphen⟩ := (h.mem_hits_bare hname).mp hk
      rw [hbare] at hfree
      rcases hfree with hfree | ⟨hbracketed, _⟩
      · exact Or.inl ⟨hlow, hhyphen, hfree⟩
      · cases hbracketed
    · have hclose := (h.mem_hits_bracketed hname).mp hk
      rw [h.start_brackets hclose] at hfree
      refine Or.inr ⟨by simp, hclose, ?_⟩
      rcases hfree with hfree | ⟨_, hlast⟩
      · exact Or.inr hfree
      · exact Or.inl hlast
  · rintro (⟨hlow, hhyphen, hfree⟩ | ⟨hopen, hclose, hfree⟩)
    · have hk := (h.mem_hits_bare hname).mpr ⟨hlow, hhyphen⟩
      rw [h.covered_of_hit ht hname uri newName hk rfl, hbare]
      exact Or.inl hfree
    · obtain ⟨g, rfl⟩ := List.getLast?_eq_some_iff.mp hopen
      have hk := (h.mem_hits_bracketed hname).mpr hclose
      rw [h.covered_of_hit ht hname uri newName hk (bytes_append g ['<']).symm, h.start_brackets hclose]
      rcases hfree with hlast | hfree
      · exact Or.inr ⟨rfl, hlast⟩
      · exact Or.inl hfree

end Edits

end AbnfServer.Rule
