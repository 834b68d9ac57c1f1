-- The references of a name in a text, told without the search that finds them: each
-- is an occurrence, and an occurrence that is none is overlapped by one that starts
-- before it.
import AbnfServer.Proofs.Rule.Occurrences
import Mathlib.Data.List.Nodup

namespace AbnfServer.Rule

open Text

variable {a b g t name : Text}

/-! ## Words -/

/-- The class `[A-Za-z0-9_]`. -/
def WordChar (c : Char) : Prop :=
  ('A' ≤ c ∧ c ≤ 'Z') ∨ ('a' ≤ c ∧ c ≤ 'z') ∨ ('0' ≤ c ∧ c ≤ '9') ∨ c = '_'

theorem isWordChar_iff (c : Char) : isWordChar c = true ↔ WordChar c := by
  rw [isWordChar, Bool.or_eq_true, isAlphanum_iff_range, beq_iff_eq, or_assoc, or_assoc]
  rfl

/-- Between two neighbours a word starts or ends: just one of them is in a word. At the
ends of a text a neighbour is missing. -/
def WordEdge (left right : Option Char) : Prop :=
  (∃ c ∈ left, WordChar c) ↔ ¬ ∃ c ∈ right, WordChar c

theorem any_isWordChar (o : Option Char) : o.any isWordChar = true ↔ ∃ c ∈ o, WordChar c := by
  simp [Option.any_eq_true, isWordChar_iff]

theorem isBoundary_iff (left right : Option Char) : isBoundary left right = true ↔ WordEdge left right := by
  rw [isBoundary, WordEdge, ← any_isWordChar, ← any_isWordChar]
  cases left.any isWordChar <;> cases right.any isWordChar <;> decide

/-! ## Occurrences -/

namespace Search

variable {s : Search}

/-- The pattern stands between two parts of a text; when it has to stand as a whole
word, it starts and ends at an edge of one. -/
structure Occurs (s : Search) (t before after : Text) : Prop where
  cut : t = before ++ s.pattern ++ after
  edges : s.wholeWord = true →
    WordEdge before.getLast? s.pattern.head? ∧ WordEdge s.pattern.getLast? after.head?

theorem occurs_iff (hcut : t = a ++ s.pattern ++ b) :
    s.Occurs t a b ↔ s.startsAt a.getLast? (s.pattern ++ b) = true := by
  rw [startsAt_pattern, Bool.or_eq_true, Bool.and_eq_true, isBoundary_iff, isBoundary_iff]
  constructor
  · intro h
    cases hwhole : s.wholeWord with
    | false => exact Or.inl rfl
    | true => exact Or.inr (h.edges hwhole)
  · rintro (hwhole | hedges)
    · refine ⟨hcut, fun h => ?_⟩
      rw [h] at hwhole
      cases hwhole
    · exact ⟨hcut, fun _ => hedges⟩

/-- The ranges are those that a search from left to right may name: they lie in order
and apart, each is an occurrence, and an occurrence that is left out is overlapped by
one that starts before it. -/
structure Exact (s : Search) (t : Text) (ranges : List Range) : Prop where
  ascending : ranges.Pairwise fun r r' => r.start < r'.start ∧ r.stop ≤ r'.start
  slice : ∀ r ∈ ranges, (LineIndex.ofText t).slice? t r = some s.pattern
  sound : ∀ r ∈ ranges, ∃ before after, s.Occurs t before after ∧
    r = ⟨before.position, (before ++ s.pattern).position⟩
  complete : ∀ before after, s.Occurs t before after →
    ⟨before.position, (before ++ s.pattern).position⟩ ∈ ranges ∨
      ∃ r ∈ ranges, r.start < before.position ∧ before.position < r.stop

theorem Exact.nodup {ranges : List Range} (h : s.Exact t ranges) : ranges.Nodup := by
  refine h.ascending.imp ?_
  rintro r r' ⟨hlt, _⟩ rfl
  exact Nat.lt_irrefl _ hlt

/-! ## What a search names -/

/-- The ranges that a search names. -/
def ranges (s : Search) (t : Text) : List Range :=
  (s.offsets t).map fun o => (LineIndex.ofText t).rangeOf o (o + s.pattern.bytes)

theorem rangeOf_pattern (hcut : t = g ++ s.pattern ++ b) :
    (LineIndex.ofText t).rangeOf g.bytes (g.bytes + s.pattern.bytes) =
      ⟨g.position, (g ++ s.pattern).position⟩ := by
  rw [← bytes_append, hcut]
  exact LineIndex.rangeOf_bytes g s.pattern b

theorem mem_offsets (hp : s.pattern ≠ []) {o : Nat} (ho : o ∈ s.offsets t) :
    ∃ before after, s.Occurs t before after ∧ o = before.bytes := by
  obtain ⟨g, b, hcut, rfl, hstarts⟩ := (finds_offsets hp t).sound ho
  exact ⟨g, b, (occurs_iff hcut).mpr hstarts, rfl⟩

theorem mem_ranges (hp : s.pattern ≠ []) {r : Range} (hr : r ∈ s.ranges t) :
    ∃ before after, s.Occurs t before after ∧ before.bytes ∈ s.offsets t ∧
      r = ⟨before.position, (before ++ s.pattern).position⟩ := by
  obtain ⟨o, ho, rfl⟩ := List.mem_map.mp hr
  obtain ⟨g, b, hoccurs, rfl⟩ := mem_offsets hp ho
  exact ⟨g, b, hoccurs, ho, rangeOf_pattern hoccurs.cut⟩

theorem range_mem_ranges (hcut : t = g ++ s.pattern ++ b) (ho : g.bytes ∈ s.offsets t) :
    ⟨g.position, (g ++ s.pattern).position⟩ ∈ s.ranges t :=
  List.mem_map.mpr ⟨g.bytes, ho, rangeOf_pattern hcut⟩

/-- Where the pattern stands, its range is named just when its offset is found. -/
theorem range_mem_ranges_iff (ht : t.Addressable) (hp : s.pattern ≠ []) (hcut : t = g ++ s.pattern ++ b) :
    ⟨g.position, (g ++ s.pattern).position⟩ ∈ s.ranges t ↔ g.bytes ∈ s.offsets t := by
  refine ⟨fun hr => ?_, range_mem_ranges hcut⟩
  obtain ⟨g', b', hoccurs, ho, hrange⟩ := mem_ranges hp hr
  rw [Range.mk.injEq] at hrange
  have hstart : t = g ++ (s.pattern ++ b) := by rw [hcut, List.append_assoc]
  have hstart' : t = g' ++ (s.pattern ++ b') := by rw [hoccurs.cut, List.append_assoc]
  rwa [(LineIndex.position_eq_iff ht hstart hstart').mp hrange.1]

theorem ranges_ascending (ht : t.Addressable) (hp : s.pattern ≠ []) :
    (s.ranges t).Pairwise fun r r' => r.start < r'.start ∧ r.stop ≤ r'.start := by
  rw [ranges, List.pairwise_map]
  refine (finds_offsets hp t).pairwise.imp_of_mem ?_
  intro o o' ho ho' hgap
  obtain ⟨g, b, hoccurs, rfl⟩ := mem_offsets hp ho
  obtain ⟨g', b', hoccurs', rfl⟩ := mem_offsets hp ho'
  have hpos := bytes_pos hp
  have hcut : t = g ++ (s.pattern ++ b) := by rw [hoccurs.cut, List.append_assoc]
  have hcut' : t = g' ++ (s.pattern ++ b') := by rw [hoccurs'.cut, List.append_assoc]
  rw [rangeOf_pattern hoccurs.cut, rangeOf_pattern hoccurs'.cut, LineIndex.position_lt_iff ht hcut hcut',
    LineIndex.position_le_iff ht hoccurs.cut hcut', bytes_append]
  omega

/-- A search names the occurrences of its pattern from left to right. -/
theorem exact_ranges (ht : t.Addressable) (hp : s.pattern ≠ []) : s.Exact t (s.ranges t) where
  ascending := ranges_ascending ht hp
  slice := by
    intro r hr
    obtain ⟨g, b, hoccurs, _, rfl⟩ := mem_ranges hp hr
    rw [hoccurs.cut] at ht ⊢
    exact LineIndex.slice?_positions ht
  sound := by
    intro r hr
    obtain ⟨g, b, hoccurs, _, rfl⟩ := mem_ranges hp hr
    exact ⟨g, b, hoccurs, rfl⟩
  complete := by
    intro before after hoccurs
    have hcut := hoccurs.cut
    rcases (finds_offsets hp t).complete (g := before) hp hcut ((occurs_iff hcut).mp hoccurs) with
      hfound | ⟨o, ho, hlt, hover⟩
    · exact Or.inl (range_mem_ranges hcut hfound)
    · obtain ⟨g, b, hearlier, rfl⟩ := mem_offsets hp ho
      rw [List.nil_append] at hlt hover
      rw [← bytes_append] at hover
      have hstart : t = before ++ (s.pattern ++ after) := by rw [hcut, List.append_assoc]
      have hstart' : t = g ++ (s.pattern ++ b) := by rw [hearlier.cut, List.append_assoc]
      exact Or.inr ⟨_, range_mem_ranges hearlier.cut ho,
        (LineIndex.position_lt_iff ht hstart' hstart).mpr hlt,
        (LineIndex.position_lt_iff ht hstart hearlier.cut).mpr hover⟩

end Search

/-! ## The law -/

theorem scanReferences_ranges (uri : String) (t : Text) (hname : name ≠ []) :
    scanReferences uri t name =
      (Search.ranges ⟨name, true⟩ t).map (fun r => ⟨⟨uri, r⟩, false⟩) ++
        (Search.ranges ⟨bracket name, false⟩ t).map (fun r => ⟨⟨uri, r⟩, true⟩) := by
  have hempty : name.isEmpty = false := List.isEmpty_eq_false_iff.mpr hname
  rw [scanReferences, hempty, Search.ranges, Search.ranges, List.map_map, List.map_map]
  rfl

/-- No place is told twice: a bare reference covers the name, and a bracketed one more
than that. -/
theorem nodup_locations (uri : String) (ht : t.Addressable) (hname : name ≠ []) :
    ((scanReferences uri t name).map Reference.location).Nodup := by
  have hlocations : (scanReferences uri t name).map Reference.location =
      (Search.ranges ⟨name, true⟩ t ++ Search.ranges ⟨bracket name, false⟩ t).map (Location.mk uri) := by
    rw [scanReferences_ranges uri t hname, List.map_append, List.map_map, List.map_map, List.map_append]
    rfl
  have hbare := Search.exact_ranges (s := ⟨name, true⟩) ht hname
  have hbracketed := Search.exact_ranges (s := ⟨bracket name, false⟩) ht (List.cons_ne_nil _ _)
  rw [hlocations]
  refine List.Nodup.map (fun r r' h => (Location.mk.inj h).2) ?_
  refine List.nodup_append'.mpr ⟨hbare.nodup, hbracketed.nodup, ?_⟩
  intro r hr hr'
  have hsame := (hbare.slice r hr).symm.trans (hbracketed.slice r hr')
  have hlength := congrArg List.length (Option.some.inj hsame)
  simp only [bracket, List.length_append, List.length_cons, List.length_nil] at hlength
  omega

/-- The references of a name are first its occurrences as a whole word, then those in
brackets. Either part goes from left to right without overlaps, and an occurrence that
it leaves out is overlapped by one that it has before. -/
theorem references_are_exact (uri : String) {t name : Text} (ht : t.bytes < UInt32.size)
    (hname : name ≠ []) :
    ∃ bare bracketed : List Range,
      scanReferences uri t name =
        bare.map (fun r => ⟨⟨uri, r⟩, false⟩) ++ bracketed.map (fun r => ⟨⟨uri, r⟩, true⟩) ∧
      Search.Exact ⟨name, true⟩ t bare ∧ Search.Exact ⟨bracket name, false⟩ t bracketed := by
  have haddr := addressable_of_bytes_lt ht
  exact ⟨_, _, scanReferences_ranges uri t hname, Search.exact_ranges haddr hname,
    Search.exact_ranges haddr (List.cons_ne_nil _ _)⟩

/-- A name that overlaps itself: its second occurrence is left out. -/
theorem a_name_that_overlaps_itself_is_found_once :
    let t : Text := "a-a-a <a-a>".toList
    let name : Text := "a-a".toList
    t.bytes < UInt32.size ∧ name ≠ [] ∧
      Search.Exact ⟨name, true⟩ t [⟨⟨0, 0⟩, ⟨0, 3⟩⟩, ⟨⟨0, 7⟩, ⟨0, 10⟩⟩] ∧
      Search.Exact ⟨bracket name, false⟩ t [⟨⟨0, 6⟩, ⟨0, 11⟩⟩] := by
  have hsize : bytes "a-a-a <a-a>".toList < UInt32.size := by decide
  have hname : "a-a".toList ≠ [] := by decide
  obtain ⟨bare, bracketed, hscan, hbare, hbracketed⟩ := references_are_exact "" hsize hname
  have hfound : scanReferences "" "a-a-a <a-a>".toList "a-a".toList =
      [⟨⟨"", ⟨⟨0, 0⟩, ⟨0, 3⟩⟩⟩, false⟩, ⟨⟨"", ⟨⟨0, 7⟩, ⟨0, 10⟩⟩⟩, false⟩,
        ⟨⟨"", ⟨⟨0, 6⟩, ⟨0, 11⟩⟩⟩, true⟩] := by decide
  rw [hfound] at hscan
  have hfirst : [⟨⟨0, 0⟩, ⟨0, 3⟩⟩, ⟨⟨0, 7⟩, ⟨0, 10⟩⟩] = bare := by
    simpa [List.filterMap_append, List.filterMap_map] using
      congrArg (List.filterMap fun r => if r.bracketed then none else some r.location.range) hscan
  have hsecond : [⟨⟨0, 6⟩, ⟨0, 11⟩⟩] = bracketed := by
    simpa [List.filterMap_append, List.filterMap_map] using
      congrArg (List.filterMap fun r => if r.bracketed then some r.location.range else none) hscan
  rw [← hfirst] at hbare
  rw [← hsecond] at hbracketed
  exact ⟨hsize, hname, hbare, hbracketed⟩

end AbnfServer.Rule
