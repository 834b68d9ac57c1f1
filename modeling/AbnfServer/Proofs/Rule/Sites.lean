-- Where the table of a text has a rule. Its name stands in a line, behind blanks and
-- in front of blanks or an equals sign, so the word search sees it there unless it
-- ends in a hyphen.
import AbnfServer.Proofs.Rule.References
import AbnfServer.Proofs.Rule.SymbolTable
import AbnfServer.Proofs.Rule.WordCoverage

namespace AbnfServer.Rule

open Text

variable {uri : String} {t n l q s before after : Text} {i : Nat} {d : DefinitionLine}
  {loc : Location}

/-! ## Sites -/

/-- Where a name stands that is defined there. -/
structure Site (t name before after : Text) : Prop where
  cut : t = before ++ name ++ after
  named : isName name = true
  left : ∀ c ∈ before.getLast?, isBlank c = true
  right : ∀ c ∈ after.head?, isBlank c = true ∨ c = '='

/-- A line that can be taken apart has a site, at the range that is told of it. -/
theorem Reads.exists_site (h : Reads l d) (hline : LineAt t i q l s) :
    ∃ before after, Site t d.name before after ∧
      d.nameRange i = ⟨before.position, (before ++ d.name).position⟩ := by
  obtain ⟨gap, rest, hparts, hgap, _⟩ := h.parts
  have hname : '\n' ∉ d.indent ++ d.name := by
    intro hin
    apply hline.inner
    rw [hparts, List.append_assoc, List.append_assoc]
    exact List.mem_append_left _ hin
  have hindent : '\n' ∉ d.indent := fun hin => hname (List.mem_append_left _ hin)
  refine ⟨q ++ d.indent, gap ++ d.operator.text ++ rest ++ s, ⟨?_, h.named, ?_, ?_⟩, ?_⟩
  · rw [hline.cut, hparts]
    simp only [List.append_assoc]
  · intro c hc
    rw [List.getLast?_append] at hc
    cases hlast : d.indent.getLast? with
    | none =>
      rw [hlast] at hc
      rw [hline.left c hc]
      rfl
    | some b =>
      rw [hlast] at hc
      cases hc
      exact List.all_eq_true.mp h.indent _ (List.mem_of_getLast? hlast)
  · intro c hc
    cases gap with
    | nil =>
      refine Or.inr ?_
      cases hop : d.operator <;> rw [hop] at hc <;> cases hc <;> rfl
    | cons b gap =>
      cases hc
      exact Or.inl (List.all_eq_true.mp hgap _ List.mem_cons_self)
  · rw [DefinitionLine.nameRange, hline.position hindent, List.append_assoc, hline.position hname,
      units_append]

/-- A table has each rule at a site of its name. -/
theorem exists_site (h : (scanDefinitions uri t).get? n = some loc) :
    ∃ before after, Site t n before after ∧ loc = ⟨uri, ⟨before.position, (before ++ n).position⟩⟩ := by
  obtain ⟨i, d, ⟨⟨l, hline, hreads⟩, rfl, _⟩, rfl⟩ := get?_scanDefinitions_iff.mp h
  obtain ⟨q, s, hat⟩ := exists_lineAt hline
  obtain ⟨before, after, hsite, hrange⟩ := hreads.exists_site hat
  exact ⟨before, after, hsite, by rw [hrange]⟩

/-- Where the last line that defines a rule has its name: behind the indentation. -/
structure LastSite (t n : Text) (r : Range) : Prop where
  line : ∃ indent, DefinitionOn t n indent r.start.line.toNat ∧ r.start.character.toNat = indent.units
  last : ∀ i indent, DefinitionOn t n indent i → i ≤ r.start.line.toNat
  slice : (LineIndex.ofText t).slice? t r = some n

/-- A table has each rule at its last site. -/
theorem lastSite_of_get? (ht : t.Addressable) (h : (scanDefinitions uri t).get? n = some loc) :
    loc.uri = uri ∧ LastSite t n loc.range := by
  obtain ⟨before, after, hsite, hloc⟩ := exists_site h
  obtain ⟨i, d, hlast, rfl⟩ := get?_scanDefinitions_iff.mp h
  obtain ⟨l, hline, hreads⟩ := hlast.reads
  obtain ⟨gap, rest, hparts, _⟩ := hreads.parts
  have hindent : d.indent <+: l := by
    rw [hparts]
    simp only [List.append_assoc]
    exact List.prefix_append _ _
  have hi : (UInt32.ofNat i).toNat = i := ht.toNat_line hlast.lt_length
  have hcolumn : (UInt32.ofNat d.indent.units).toNat = d.indent.units :=
    ht.toNat_column (List.mem_of_getElem? hline) hindent
  refine ⟨rfl, ⟨d.indent, ?_, hcolumn⟩, ?_, ?_⟩
  · simp only [DefinitionLine.nameRange, Position.ofNat, hi]
    exact hlast.on
  · intro j indent hdef
    simp only [DefinitionLine.nameRange, Position.ofNat, hi]
    exact hlast.le hdef
  · rw [hloc, hsite.cut]
    exact LineIndex.slice?_positions (hsite.cut ▸ ht)

namespace Site

theorem stands (h : Site t n before after) : Stands t before n after where
  cut := h.cut
  chars _ hc := isNameChar_of_mem h.named hc
  left := by
    cases hlast : before.getLast? with
    | none => rfl
    | some c => exact isNameChar_of_isBlank (h.left c hlast)
  right := by
    cases hhead : after.head? with
    | none => rfl
    | some c =>
      rcases h.right c hhead with hblank | rfl
      · exact isNameChar_of_isBlank hblank
      · rfl

theorem not_low_line (h : Site t n before after) :
    before.getLast? ≠ some '_' ∧ after.head? ≠ some '_' := by
  constructor
  · intro hlast
    exact absurd (h.left '_' hlast) (by decide)
  · intro hhead
    exact absurd (h.right '_' hhead) (by decide)

/-- A definition is one of the bare references of its name, unless it ends in a hyphen. -/
theorem mem_references_iff (h : Site t n before after) (ht : t.Addressable) (uri : String) :
    (⟨⟨uri, ⟨before.position, (before ++ n).position⟩⟩, false⟩ : Reference) ∈ scanReferences uri t n ↔
      n.getLast? ≠ some '-' := by
  have hne := ne_nil_of_isName h.named
  obtain ⟨hleft, hright⟩ := h.not_low_line
  have hhits := h.stands.mem_hits_bare h.named
  have hranges := Search.range_mem_ranges_iff (s := ⟨n, true⟩) ht hne h.cut
  rw [mem_hits_iff] at hhits
  rw [scanReferences_ranges uri t hne]
  simp only [List.mem_append, List.mem_map, Reference.mk.injEq, Location.mk.injEq, true_and, and_true,
    exists_eq_right, Bool.true_eq_false, and_false, exists_false, or_false]
  rw [hranges]
  refine hhits.trans ?_
  simp [hleft, hright]

end Site

end AbnfServer.Rule
