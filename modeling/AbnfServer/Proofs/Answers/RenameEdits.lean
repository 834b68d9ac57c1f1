-- The edits of a rename as an editor gets them: which of the reported references
-- they cover, and what they replace.
import AbnfServer.Proofs.Answers.Rename
import AbnfServer.Proofs.Rule.Coverage
import Mathlib

namespace AbnfServer.Resolver

open Rule

/-! ## What the edits replace -/

theorem count_newlines_name {name : Text} (hname : isName name = true) :
    name.count '\n' = 0 ∧ (bracket name).count '\n' = 0 := by
  have hmem : '\n' ∉ name := not_mem_name hname (by decide)
  rw [List.count_eq_zero, List.count_eq_zero]
  exact ⟨hmem, by simp [bracket, hmem]⟩

/-- In every text of less than `2 ^ 32` bytes, the edits of a rename come in order
and lie apart. Under each one stands the old name, bare or in brackets, and the new
name takes its place in the same form. To apply them is to replace just these
occurrences, so there are as many lines as before, and to rename a rule to itself
changes nothing. -/
theorem rename_edits_replace_just_the_name (catalog : Catalog) (limits : CacheLimits) (now : Nanos)
    (uri : String) (text : Text) (version : Int) (name newName : Text)
    (ht : text.bytes < UInt32.size) (hdef : (scanDefinitions uri text).contains name = true)
    (hnew : isName newName = true) :
    ∃ edits, ((new catalog limits).planRename now (.new uri text version) name newName).1 = .ok edits ∧
      (edits.Pairwise fun e f => e.range.start < f.range.start ∧ e.range.touches f.range = false) ∧
      (∀ e ∈ edits,
        (LineIndex.ofText text).slice? text e.range = some name ∧ e.newText = newName ∨
          (LineIndex.ofText text).slice? text e.range = some (bracket name) ∧
            e.newText = bracket newName) ∧
      Text.Replaced (.ofText text) [] edits text (text.applyEdits edits) ∧
      (text.applyEdits edits).lines.length = text.lines.length ∧
      (newName = name → text.applyEdits edits = text) := by
  have ht := Text.addressable_of_bytes_lt ht
  have hname := isName_of_mem_definedNames ((contains_scanDefinitions uri text name).mp hdef)
  obtain ⟨chosen, hchosen, hplan⟩ := planEdits_chosen ht hname
  have hcases : ∀ e ∈ chosen.map (Hit.edit name text newName),
      (LineIndex.ofText text).slice? text e.range = some name ∧ e.newText = newName ∨
        (LineIndex.ofText text).slice? text e.range = some (bracket name) ∧
          e.newText = bracket newName := by
    intro e he
    obtain ⟨h, hh, rfl⟩ := List.mem_map.mp he
    exact Hit.edit_cases ht hname newName (hchosen.subset h hh)
  have hreplaced := hchosen.replaced ht hname newName
  refine ⟨_, planRename_of_defined catalog limits now version hdef hnew, ?_⟩
  rw [hplan]
  refine ⟨hchosen.edits_apart ht hname newName, hcases, hreplaced, ?_, ?_⟩
  · -- neither the old text nor the new one has a newline in it
    rw [Text.length_lines, Text.length_lines]
    congr 1
    apply hreplaced.count_newlines (List.nil_append text).symm
    intro e he old hold
    obtain ⟨hname₀, hbracket₀⟩ := count_newlines_name hname
    obtain ⟨hnew₀, hnewBracket₀⟩ := count_newlines_name hnew
    rcases hcases e he with ⟨hslice, hnewText⟩ | ⟨hslice, hnewText⟩
    · rw [hslice, Option.some.injEq] at hold
      rw [hnewText, ← hold, hname₀, hnew₀]
    · rw [hslice, Option.some.injEq] at hold
      rw [hnewText, ← hold, hbracket₀, hnewBracket₀]
  · rintro rfl
    apply hreplaced.eq_of_same (List.nil_append text).symm
    intro e he
    rcases hcases e he with ⟨hslice, hnewText⟩ | ⟨hslice, hnewText⟩
    · rw [hslice, hnewText]
    · rw [hslice, hnewText]

/-- The rule stands behind a character of two units and in a line that ends with a
carriage return. -/
theorem a_rename_keeps_what_lies_around :
    let text := "a = x\r\nb = 😀 a <a>".toList
    ∃ edits, ((new .english {}).planRename 0 (.new "f" text 1) "a".toList "c".toList).1 = .ok edits ∧
      (edits.Pairwise fun e f => e.range.start < f.range.start ∧ e.range.touches f.range = false) ∧
      Text.Replaced (.ofText text) [] edits text (Text.applyEdits text edits) ∧
      (Text.applyEdits text edits).lines.length = 2 := by
  obtain ⟨edits, hplan, hapart, _, hreplaced, hlines, _⟩ := rename_edits_replace_just_the_name .english {} 0
    "f" "a = x\r\nb = 😀 a <a>".toList 1 "a".toList "c".toList (by decide) (by decide) (by decide)
  exact ⟨edits, hplan, hapart, hreplaced, hlines⟩

/-! ## What the edits cover -/

theorem referencesOf_new (catalog : Catalog) (limits : CacheLimits) (now : Nanos) (uri : String)
    (text : Text) (version : Int) (name : Text) :
    ((new catalog limits).referencesOf now (.new uri text version) name).1 =
      scanReferences uri text name := by
  have hcurrent : Current (fun _ _ t => t = text) (.new uri text version) := ⟨rfl, fun _ h => h⟩
  exact (referencesOf_spec (r := new catalog limits) (ScanCache.coherent_new limits) hcurrent now name).1

/-- In every text whose places are positions, the edits of a rename cover the name
in each reported reference, unless the reference starts where an edit ends: what
touches an edit counts as overlapping it and is left out. A reference in brackets
is covered even then, by the edit of the bare name in it, when that name is a word
to its end. -/
theorem rename_leaves_only_touching_references (catalog : Catalog) (limits : CacheLimits) (now : Nanos)
    (uri : String) (text : Text) (version : Int) (name newName : Text) (ht : text.Addressable)
    (hdef : (scanDefinitions uri text).contains name = true) (hnew : isName newName = true) :
    ∃ edits, ((new catalog limits).planRename now (.new uri text version) name newName).1 = .ok edits ∧
      ∀ r ∈ ((new catalog limits).referencesOf now (.new uri text version) name).1,
        (∃ e ∈ edits, e.range.Covers r.nameRange) ↔
          (¬ ∃ e ∈ edits, e.range.stop = r.location.range.start) ∨
            r.bracketed = true ∧ name.getLast? ≠ some '-' := by
  refine ⟨_, planRename_of_defined catalog limits now version hdef hnew, ?_⟩
  rw [referencesOf_new]
  intro r hr
  have hname := isName_of_mem_definedNames ((contains_scanDefinitions uri text name).mp hdef)
  exact planEdits_covers_iff ht hname uri newName hr

/-- Of two names in brackets side by side the first is edited with its brackets,
the second one without. -/
theorem both_of_two_brackets_are_covered :
    let text := "a = <a><a>".toList
    ∃ edits, ((new .english {}).planRename 0 (.new "f" text 1) "a".toList "c".toList).1 = .ok edits ∧
      ∀ r ∈ ((new .english {}).referencesOf 0 (.new "f" text 1) "a".toList).1,
        r.bracketed = true → ∃ e ∈ edits, e.range.Covers r.nameRange := by
  obtain ⟨edits, hplan, hcovers⟩ := rename_leaves_only_touching_references .english {} 0 "f"
    "a = <a><a>".toList 1 "a".toList "c".toList (Text.addressable_of_bytes_lt (by decide)) (by decide)
    (by decide)
  refine ⟨edits, hplan, ?_⟩
  intro r hr hb
  exact (hcovers r hr).mpr (Or.inr ⟨hb, by decide⟩)

/-! ## References that stay -/

/-- A rename of a defined rule goes through, and leaves a reported reference as it
is. -/
structure Leaves (text name newName : Text) (r : Reference) : Prop where
  defined : (scanDefinitions "f" text).contains name = true
  valid : isName newName = true
  reported : r ∈ ((new .english {}).referencesOf 0 (.new "f" text 1) name).1
  left : ∃ edits, ((new .english {}).planRename 0 (.new "f" text 1) name newName).1 = .ok edits ∧
    ∀ e ∈ edits, ¬ e.range.Covers r.nameRange

theorem leaves_of_ranges {text name newName : Text} {r : Reference}
    (hdef : (scanDefinitions "f" text).contains name = true) (hnew : isName newName = true)
    (hr : r ∈ scanReferences "f" text name)
    (hleft : ∀ a ∈ select ((scanReferences "f" text name).map fun r => r.location.range),
      ¬ a.Covers r.nameRange) : Leaves text name newName r where
  defined := hdef
  valid := hnew
  reported := by
    rw [referencesOf_new]
    exact hr
  left := by
    refine ⟨_, planRename_of_defined .english {} 0 1 hdef hnew, ?_⟩
    intro e he
    obtain ⟨a, ha, rfl⟩ := List.mem_map.mp he
    exact hleft a ha

/-- The bare `a` touches the `<a>` in front of it. -/
theorem leaves_behind_brackets :
    Leaves "a = <a>a".toList "a".toList "c".toList ⟨⟨"f", ⟨⟨0, 7⟩, ⟨0, 8⟩⟩⟩, false⟩ := by
  have hranges : select ((scanReferences "f" "a = <a>a".toList "a".toList).map fun r => r.location.range) =
      [⟨⟨0, 0⟩, ⟨0, 1⟩⟩, ⟨⟨0, 4⟩, ⟨0, 7⟩⟩] := by cbv
  apply leaves_of_ranges (by decide) (by decide) (by decide)
  rw [hranges]
  decide

/-- In the second pair of brackets no bare `a-` is found, as it ends in a hyphen. -/
theorem leaves_last_hyphen :
    Leaves "a- = <a-><a->".toList "a-".toList "c".toList ⟨⟨"f", ⟨⟨0, 9⟩, ⟨0, 13⟩⟩⟩, true⟩ := by
  have hranges : select ((scanReferences "f" "a- = <a-><a->".toList "a-".toList).map
      fun r => r.location.range) = [⟨⟨0, 5⟩, ⟨0, 9⟩⟩] := by cbv
  apply leaves_of_ranges (by decide) (by decide) (by decide)
  rw [hranges]
  decide

/-! Behind `k` newlines, where `k` is no line number of a position any more, a
reference is reported in the first line, and it clashes with the rule there. -/

section Far

variable {k : Nat}

/-- A rule on the first line, and a reference to it on line `k`. -/
def farReference (k : Nat) : Text := "ab =".toList ++ (List.replicate k '\n' ++ " ab".toList)

theorem place_farReference (k : Nat) :
    Text.place ("ab =".toList ++ List.replicate (k + 1) '\n' ++ " ".toList) = (k + 1, 1) := by
  have hrule : Text.place "ab =".toList = (0, 4) := rfl
  have hblank : Text.place " ".toList = (0, 1) := rfl
  rw [Text.place_append, Text.place_append, hrule, hblank, place_replicate]
  simp

theorem scanReferences_farReference (k : Nat) :
    scanReferences "f" (farReference (k + 1)) "ab".toList =
      [⟨⟨"f", ⟨⟨0, 0⟩, ⟨0, 2⟩⟩⟩, false⟩, ⟨⟨"f", ⟨.ofNat (k + 1) 1, .ofNat (k + 1) 3⟩⟩, false⟩] := by
  have hskip (s : Search) (hs : ∀ before t, s.startsAt before ('\n' :: t) = false) :
      s.offsetsFrom 4 (some '=') 0 (List.replicate (k + 1) '\n' ++ " ab".toList) =
        s.offsetsFrom (4 + (k + 1)) (some '\n') 0 " ab".toList :=
    offsetsFrom_replicate hs 4 k (some '=') " ab".toList
  have hbare : (Search.ofName "ab".toList false).offsets (farReference (k + 1)) = [0, 4 + (k + 1) + 1] := by
    have hfirst : (Search.ofName "ab".toList false).offsets (farReference (k + 1)) =
        0 :: (Search.ofName "ab".toList false).offsetsFrom 4 (some '=') 0
          (List.replicate (k + 1) '\n' ++ " ab".toList) := rfl
    rw [hfirst, hskip _ fun _ _ => rfl]
    rfl
  have hbracketed : (Search.ofName "ab".toList true).offsets (farReference (k + 1)) = [] := by
    have hfirst : (Search.ofName "ab".toList true).offsets (farReference (k + 1)) =
        (Search.ofName "ab".toList true).offsetsFrom 4 (some '=') 0
          (List.replicate (k + 1) '\n' ++ " ab".toList) := rfl
    rw [hfirst, hskip _ fun _ _ => rfl]
    rfl
  have hrule : (LineIndex.ofText (farReference (k + 1))).rangeOf 0 (0 + 2) = ⟨⟨0, 0⟩, ⟨0, 2⟩⟩ :=
    LineIndex.rangeOf_bytes [] "ab".toList (" =".toList ++ (List.replicate (k + 1) '\n' ++ " ab".toList))
  have hfar : (LineIndex.ofText (farReference (k + 1))).rangeOf (4 + (k + 1) + 1) (4 + (k + 1) + 1 + 2) =
      ⟨.ofNat (k + 1) 1, .ofNat (k + 1) 3⟩ := by
    have hcut : farReference (k + 1) =
        "ab =".toList ++ List.replicate (k + 1) '\n' ++ " ".toList ++ "ab".toList ++ [] := by
      simp [farReference]
    have hname : Text.place "ab".toList = (0, 2) := rfl
    have hends := LineIndex.rangeOf_bytes
      ("ab =".toList ++ List.replicate (k + 1) '\n' ++ " ".toList) "ab".toList []
    rw [← hcut, Text.position, Text.position, Text.place_append _ "ab".toList, place_farReference, hname,
      Text.bytes_append _ "ab".toList, Text.bytes_append, Text.bytes_append, bytes_replicate] at hends
    exact hends
  have hsize : (Search.ofName "ab".toList false).pattern.bytes = 2 := rfl
  rw [scanReferences, if_neg (by decide)]
  simp only [Rule.referencesOf, hbare, hbracketed, List.map_cons, List.map_nil, List.append_nil, hsize,
    hrule, hfar]

theorem leaves_farReference (hk : UInt32.ofNat (k + 1) = 0) :
    Leaves (farReference (k + 1)) "ab".toList "c".toList ⟨⟨"f", ⟨⟨0, 1⟩, ⟨0, 3⟩⟩⟩, false⟩ := by
  have hrefs := scanReferences_farReference k
  simp only [Position.ofNat, hk] at hrefs
  have hranges : select ((scanReferences "f" (farReference (k + 1)) "ab".toList).map
      fun r => r.location.range) = [⟨⟨0, 0⟩, ⟨0, 2⟩⟩] := by
    rw [hrefs]
    cbv
  have hdef : (scanDefinitions "f" (farReference (k + 1))).contains "ab".toList = true := by
    have hlines : Text.lines (farReference (k + 1)) =
        "ab =".toList :: Text.lines (List.replicate k '\n' ++ " ab".toList) :=
      Text.lines_append_newline (l := "ab =".toList) (by decide) _
    rw [contains_scanDefinitions, definedNames, hlines, List.map_cons]
    exact List.mem_cons_self
  apply leaves_of_ranges hdef (by decide)
  · rw [hrefs]
    exact List.mem_cons_of_mem _ (List.mem_singleton.mpr rfl)
  · rw [hranges]
    decide

end Far

/-- A rename may leave a reported reference as it is: one that touches the edit in
front of it, or one whose line has no number as a position. -/
theorem some_references_stay :
    Leaves "a = <a>a".toList "a".toList "c".toList ⟨⟨"f", ⟨⟨0, 7⟩, ⟨0, 8⟩⟩⟩, false⟩ ∧
      Leaves "a- = <a-><a->".toList "a-".toList "c".toList ⟨⟨"f", ⟨⟨0, 9⟩, ⟨0, 13⟩⟩⟩, true⟩ ∧
      Leaves (farReference UInt32.size) "ab".toList "c".toList ⟨⟨"f", ⟨⟨0, 1⟩, ⟨0, 3⟩⟩⟩, false⟩ :=
  ⟨leaves_behind_brackets, leaves_last_hyphen, leaves_farReference (k := UInt32.size - 1) rfl⟩

end AbnfServer.Resolver
