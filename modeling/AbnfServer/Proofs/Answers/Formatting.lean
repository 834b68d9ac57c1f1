-- What formatting does to a document: it says what it said before, the one edit
-- puts the canonical form in the place of the whole text, and then it is settled.
import AbnfServer.Proofs.Answers.Session
import AbnfServer.Proofs.Rule.Layout
import AbnfServer.Proofs.Rule.LineSearch
import AbnfServer.Proofs.Rule.RenamedLines

namespace AbnfServer.Rule

open Text

variable {l name : Text} {c : Char} {d : DefinitionLine}

/-! ## Occurrences on a line -/

theorem separates_of_not_isNameChar (hname : isName name = true) (bracketed : Bool)
    (hc : isNameChar c = false) (hword : isWordChar c = false) (hopen : c ≠ '<') (hclose : c ≠ '>') :
    (Search.ofName name bracketed).Separates c where
  pattern := by
    have hnot : c ∉ name := fun hin => by
      rw [isNameChar_of_mem hname hin] at hc
      cases hc
    cases bracketed with
    | false => exact hnot
    | true => simp [Search.ofName, bracket, hnot, hopen, hclose]
  word := hword

theorem separates_of_isBlank (hname : isName name = true) (bracketed : Bool) (hc : isBlank c = true) :
    (Search.ofName name bracketed).Separates c := by
  apply separates_of_not_isNameChar hname bracketed (isNameChar_of_isBlank hc)
    (not_isWordChar_of_isBlank hc)
  · rintro rfl
    cases hc
  · rintro rfl
    cases hc

theorem separates_of_mem_operator (hname : isName name = true) (bracketed : Bool) {o : Operator}
    (hc : c ∈ o.text) : (Search.ofName name bracketed).Separates c := by
  have hcase : c = '=' ∨ c = '/' := by
    cases o with
    | defines => exact Or.inl (List.mem_singleton.mp hc)
    | «extends» => simpa [Operator.text] using hc
  rcases hcase with rfl | rfl
  · exact separates_of_not_isNameChar hname bracketed rfl rfl (by decide) (by decide)
  · exact separates_of_not_isNameChar hname bracketed rfl rfl (by decide) (by decide)

/-- A definition holds a name where its own name and its body do, and nowhere else. -/
theorem Reads.count_eq (hname : isName name = true) (bracketed : Bool) (h : Reads l d) :
    (Search.ofName name bracketed).count l =
      (Search.ofName name bracketed).count d.name + (Search.ofName name bracketed).count d.body := by
  obtain ⟨s, r, hl, hs, _, hbody⟩ := h.parts
  obtain ⟨w, e, hr, hw, he⟩ := exists_blanks_trim r
  have hp := pattern_ne_nil (ne_nil_of_isName hname) bracketed
  have hblank {x : Text} (hx : x.all isBlank = true) :
      ∀ c ∈ x, (Search.ofName name bracketed).Separates c := fun c hc =>
    separates_of_isBlank hname bracketed (List.all_eq_true.mp hx c hc)
  have hmiddle : ∀ c ∈ s ++ d.operator.text, (Search.ofName name bracketed).Separates c := by
    intro c hc
    rcases List.mem_append.mp hc with hc | hc
    · exact hblank hs c hc
    · exact separates_of_mem_operator hname bracketed hc
  have hne : s ++ d.operator.text ≠ [] := by cases d.operator <;> simp [Operator.text]
  have hmove : l = d.indent ++ (d.name ++ (s ++ d.operator.text) ++ r) := by
    rw [hl]
    simp only [List.append_assoc]
  have hrest : (Search.ofName name bracketed).count r = (Search.ofName name bracketed).count d.body := by
    rw [hr, Search.count_append_right hp (hblank he), Search.count_append_left hp (hblank hw), hbody]
  rw [hmove, Search.count_append_left hp (hblank h.indent), Search.count_append_append hp hmiddle hne,
    hrest]

/-- The layout of a line neither makes nor loses an occurrence. -/
theorem count_layoutLine (hname : isName name = true) (bracketed : Bool) (l : Text) :
    (Search.ofName name bracketed).count (layoutLine l) = (Search.ofName name bracketed).count l := by
  cases hread : DefinitionLine.read? l with
  | none => rw [layoutLine, hread]
  | some d =>
    have h := read?_iff.mp hread
    rw [h.layoutLine.count_eq hname, h.count_eq hname]

/-! ## What a text says -/

/-- A reference without its columns. -/
def Reference.withoutColumns (r : Reference) : Reference :=
  { r with location := ⟨r.location.uri, ⟨r.location.range.start.line, 0⟩, ⟨r.location.range.stop.line, 0⟩⟩ }

/-- The place of a name that starts its line. -/
def atLineStart (name : Text) (l : Location) : Location :=
  ⟨l.uri, ⟨l.range.start.line, 0⟩, ⟨l.range.start.line, .ofNat name.units⟩⟩

/-- How the layout treats a line. A definition is laid out anew, up to a carriage
return that ends its line: that one stays. -/
structure LaidOut (l l' : Text) : Prop where
  blank : trim l = [] → l' = l
  comment : (trim l).head? = some ';' → l' = l
  other : (∀ n, ¬ Defines l n) → l' = l
  definition : ∀ d, Reads l d →
    l' = d.name ++ ' ' :: d.operator.text ++ (if d.body = [] then [] else ' ' :: d.body) ++
      (if l.getLast? = some '\r' then ['\r'] else [])

/-- A text says in canonical form what another one says. -/
structure SameMeaning (uri : String) (t u : Text) : Prop where
  length : u.lines.length = t.lines.length
  lines : List.Forall₂ LaidOut t.lines u.lines
  definitions : ∀ name, (scanDefinitions uri u).get? name =
    ((scanDefinitions uri t).get? name).map (atLineStart name)
  references : ∀ name, isName name = true →
    (scanReferences uri u name).map Reference.withoutColumns =
      (scanReferences uri t name).map Reference.withoutColumns

theorem laidOut_layoutLine (l : Text) : LaidOut l (layoutLine l) where
  blank h := by
    apply layoutLine_of_not_reads
    intro d hd
    obtain ⟨c, hc, _⟩ := hd.head?_trim
    rw [h] at hc
    cases hc
  comment h := by
    apply layoutLine_of_not_reads
    intro d hd
    obtain ⟨c, hc, halpha⟩ := hd.head?_trim
    rw [h] at hc
    cases hc
    cases halpha
  other h := by
    apply layoutLine_of_not_reads
    intro d hd
    exact h d.name (defines_iff_reads.mpr ⟨d, hd, rfl⟩)
  definition d hd := by rw [layoutLine_of_reads hd, layout_eq, lineEnding]

theorem definitionSites_layout (uri : String) (i : Nat) (ls : List Text) :
    definitionSites uri i (ls.map layoutLine) =
      (definitionSites uri i ls).map fun e => (e.1, atLineStart e.1 e.2) := by
  induction ls generalizing i with
  | nil => rfl
  | cons l ls ih =>
    rw [List.map_cons, definitionSites, definitionSites, ih]
    cases hread : DefinitionLine.read? l with
    | none => rw [layoutLine, hread, hread]
    | some d =>
      have h := read?_iff.mp hread
      have hlaid := read?_iff.mpr h.layoutLine
      rw [hlaid, List.map_cons]
      simp [DefinitionLine.nameRange, atLineStart, Position.ofNat, units]

theorem get?_foldl_insert_map (f : Text → Location → Location) (es : List (Text × Location))
    {t u : SymbolTable} (h : ∀ n, u.get? n = (t.get? n).map (f n)) (n : Text) :
    (((es.map fun e => (e.1, f e.1 e.2)).foldl (fun table e => table.insert e.1 e.2) u).get? n) =
      ((es.foldl (fun table e => table.insert e.1 e.2) t).get? n).map (f n) := by
  induction es generalizing t u with
  | nil => exact h n
  | cons e es ih =>
    rw [List.map_cons, List.foldl_cons, List.foldl_cons]
    apply ih
    intro m
    rw [Dict.get?_insert, Dict.get?_insert, h m]
    by_cases hm : m = e.1
    · rw [if_pos hm, if_pos hm, hm]
      rfl
    · rw [if_neg hm, if_neg hm]

theorem get?_scanDefinitions_layout (uri : String) (t name : Text) :
    (scanDefinitions uri (layout t)).get? name =
      ((scanDefinitions uri t).get? name).map (atLineStart name) := by
  unfold scanDefinitions
  rw [lines_layout, definitionSites_layout]
  exact get?_foldl_insert_map atLineStart _ (fun _ => rfl) name

/-- Up to the columns, references are told by the lines of the occurrences. -/
theorem referencesOf_withoutColumns (uri : String) (t name : Text) (bracketed : Bool) :
    (referencesOf uri t name bracketed).map Reference.withoutColumns =
      ((Search.ofName name bracketed).lineSpans t).map fun p =>
        ⟨⟨uri, ⟨.ofNat p.1, 0⟩, ⟨.ofNat p.2, 0⟩⟩, bracketed⟩ := by
  simp only [referencesOf, Search.lineSpans, List.map_map]
  rfl

theorem scanReferences_layout (uri : String) (t : Text) (hname : isName name = true) :
    (scanReferences uri (layout t) name).map Reference.withoutColumns =
      (scanReferences uri t name).map Reference.withoutColumns := by
  have hempty : name.isEmpty = false := List.isEmpty_eq_false_iff.mpr (ne_nil_of_isName hname)
  have hspans (bracketed : Bool) : (Search.ofName name bracketed).lineSpans (layout t) =
      (Search.ofName name bracketed).lineSpans t := by
    have hlines : ∀ l ∈ t.lines, '\n' ∉ l := fun l hl => not_mem_of_mem_lines hl
    have h := Search.lineSpans_joinLines (pattern_ne_nil (ne_nil_of_isName hname) bracketed)
      (separates_of_isBlank hname bracketed rfl) hlines
      (fun l hl => not_mem_layoutLine (hlines l hl)) fun l _ => count_layoutLine hname bracketed l
    rwa [joinLines_lines] at h
  simp only [scanReferences, hempty, Bool.false_eq_true, if_false, List.map_append,
    referencesOf_withoutColumns, hspans]

/-- Formatting keeps what a text says: no line goes and none comes, only the lines
that define a rule change, and they define and mention the same rules. -/
theorem layout_keeps_the_meaning (uri : String) (text : Text) :
    SameMeaning uri text ((layout? text).getD text) := by
  rw [getD_layout?]
  refine ⟨?_, ?_, ?_, ?_⟩
  · rw [lines_layout, List.length_map]
  · rw [lines_layout, List.forall₂_map_right_iff, List.forall₂_same]
    exact fun l _ => laidOut_layoutLine l
  · exact get?_scanDefinitions_layout uri text
  · exact fun name hname => scanReferences_layout uri text hname

example : layout? " a=/b \r\nno rule\nc  =".toList = some "a =/ b\r\nno rule\nc =".toList := by decide

end AbnfServer.Rule

namespace AbnfServer.Session

open Text

variable {uri : String} {text : Text} {version : Int} {settings : Settings} {e : Edit}

/-! ## The edit of a formatting request -/

theorem fullRange_new (uri : String) (text : Text) (version : Int) :
    (Document.new uri text version).fullRange = ⟨position [], text.position⟩ := by
  have h := LineIndex.rangeOf_bytes [] text []
  rw [List.append_nil] at h
  exact h

/-- A change of the full range replaces the whole text. -/
theorem apply_fullRange (h : text.Addressable) (newText : Text) :
    Change.apply text ⟨some ⟨position [], text.position⟩, newText⟩ = newText := by
  have hspan := LineIndex.spanOf?_positions (a := []) (m := text) (b := [])
  have hrest := dropBytes_bytes text []
  simp only [List.nil_append, List.append_nil] at hspan hrest
  simp only [Change.apply, hspan h, bytes, Nat.zero_le, if_true, takeBytes_zero, hrest,
    List.nil_append, List.append_nil]

theorem mem_formatEdits (h : e ∈ formatEdits settings (.new uri text version)) :
    formatEdits settings (.new uri text version) = [e] ∧
      e.range = ⟨position [], text.position⟩ ∧ Rule.layout? text = some e.newText := by
  unfold formatEdits at h ⊢
  split at h
  · next henabled =>
    rw [if_pos henabled]
    cases hlaid : Rule.layout? text with
    | none =>
      simp [Document.new, hlaid] at h
    | some u =>
      have hone : e = ⟨(Document.new uri text version).fullRange, u⟩ := by
        simpa [Document.new, hlaid] using h
      subst hone
      refine ⟨?_, fullRange_new uri text version, rfl⟩
      simp [Document.new, hlaid]
  · cases h

theorem formatEdits_layout (settings : Settings) (uri : String) (text : Text) (version : Int) :
    formatEdits settings (.new uri (Rule.layout text) version) = [] := by
  have hsettled : Rule.layout? (Rule.layout text) = none := if_pos (Rule.layout_layout text)
  unfold formatEdits
  split
  · simp [Document.new, hsettled]
  · rfl

/-- The edit of a formatting request makes of the document the one whose text is
the canonical form, and there no request finds anything more to edit. -/
theorem formatting_settles_after_one_edit (settings later : Settings) (uri : String)
    (version newVersion : Int) (htext : text.bytes < UInt32.size)
    (he : e ∈ formatEdits settings (.new uri text version)) :
    ∃ u, Rule.layout? text = some u ∧ formatEdits settings (.new uri text version) = [e] ∧
      (Document.new uri text version).applyChanges [⟨some e.range, e.newText⟩] newVersion =
        .new uri u newVersion ∧
      formatEdits later (.new uri u newVersion) = [] := by
  obtain ⟨hone, hrange, hlaid⟩ := mem_formatEdits he
  have hcanonical : e.newText = Rule.layout text := by
    have h := Rule.getD_layout? text
    rwa [hlaid] at h
  refine ⟨e.newText, hlaid, hone, ?_, ?_⟩
  · rw [applyChanges_new, List.foldl_cons, List.foldl_nil, hrange,
      apply_fullRange (addressable_of_bytes_lt htext)]
  · rw [hcanonical]
    exact formatEdits_layout later uri text newVersion

theorem one_line_settles :
    ∃ u, Rule.layout? "a=b".toList = some u ∧
      formatEdits {} (.new "d" "a=b".toList 1) = [⟨⟨⟨0, 0⟩, ⟨0, 3⟩⟩, "a = b".toList⟩] ∧
      (Document.new "d" "a=b".toList 1).applyChanges
        [⟨some ⟨⟨0, 0⟩, ⟨0, 3⟩⟩, "a = b".toList⟩] 2 = .new "d" u 2 ∧
      formatEdits {} (.new "d" u 2) = [] :=
  formatting_settles_after_one_edit {} {} "d" 1 2 (by decide) (by decide)

end AbnfServer.Session
