-- What an answer about the references of a rule has to do with its definition: the
-- definition is one of them, and leaving the declaration out leaves out just it.
import AbnfServer.Proofs.Answers.PrepareRename
import AbnfServer.Proofs.Rule.Sites

namespace AbnfServer

open Rule

namespace Scanned

variable {d : Document} {place : Position} {word : Text} {r : Range} {loc : Location}

theorem references_of_word (hword : d.wordAt? place = some (word, r)) :
    references d place true =
      .ok (.locations ((scanReferences d.uri d.text word).map Reference.location)) := by
  simp only [references, hword, if_true]

/-- Without its declaration, the place where a rule is defined is left out once. -/
theorem references_without_declaration (ht : d.text.Addressable)
    (hword : d.wordAt? place = some (word, r)) (hne : word ≠ [])
    (hdef : (scanDefinitions d.uri d.text).get? word = some loc) :
    references d place false =
      .ok (.locations (((scanReferences d.uri d.text word).map Reference.location).erase loc)) := by
  have herase := (nodup_locations d.uri ht hne).erase_eq_filter loc
  simp only [references, hword, hdef, Bool.false_eq_true, if_false, herase]
  congr 3
  funext l
  rw [Bool.eq_iff_iff, bne_iff_ne, bne_iff_ne, ne_eq, Option.some.injEq]
  exact not_congr eq_comm

end Scanned

namespace Session

/-- Where a text defines a rule, the rule is one of its bare references, unless its
name ends in a hyphen. A session that is asked for the references under the cursor
tells it once with the declaration, and without it all the others. -/
theorem definition_site_is_a_reference (uri : String) {t n : Text} {loc : Location}
    (ht : t.bytes < UInt32.size) (hdef : (scanDefinitions uri t).get? n = some loc)
    (hlast : n.getLast? ≠ some '-') :
    (⟨loc, false⟩ : Reference) ∈ scanReferences uri t n ∧
      ∀ (locale : Option Locale) (messages : List (Nanos × Message)) (now : Nanos) (place : Position)
        (r : Range) (d : Document),
        let s := (new locale).run messages
        s.phase = .running → s.documents.get? uri = some d → d.text = t →
          d.wordAt? place = some (n, r) →
          ∃ found : List Location,
            s.replyTo now (.references uri place true) = some (.ok (.locations found)) ∧
            found.Nodup ∧ loc ∈ found ∧
            s.replyTo now (.references uri place false) = some (.ok (.locations (found.erase loc))) := by
  have haddr := Text.addressable_of_bytes_lt ht
  obtain ⟨before, after, hsite, hloc⟩ := exists_site hdef
  have hne := ne_nil_of_isName hsite.named
  have hmem : (⟨loc, false⟩ : Reference) ∈ scanReferences uri t n := by
    rw [hloc]
    exact (hsite.mem_references_iff haddr uri).mpr hlast
  refine ⟨hmem, ?_⟩
  intro locale messages now place r d s hrun hopen htext hword
  have hsound : s.Sound := sound_run (sound_new locale) messages
  have huri : d.uri = uri := by
    rw [hsound.indexed uri d hopen]
    rfl
  subst huri htext
  refine ⟨(scanReferences d.uri d.text n).map Reference.location, ?_, nodup_locations d.uri haddr hne,
    List.mem_map_of_mem hmem, ?_⟩
  · rw [replyTo_running (q := .references d.uri place true) hsound hrun hopen, Query.answerFor,
      Scanned.references_of_word hword]
  · rw [replyTo_running (q := .references d.uri place false) hsound hrun hopen, Query.answerFor,
      Scanned.references_without_declaration haddr hword hne hdef]

/-- A rule with a hyphen in its name, asked for where it is used. -/
theorem an_indented_definition_is_a_reference :
    let s := opened " b-c = x\nd = <b-c>".toList
    ∃ found : List Location,
      s.replyTo 3 (.references "f" ⟨1, 6⟩ true) = some (.ok (.locations found)) ∧
      ⟨"f", ⟨⟨0, 1⟩, ⟨0, 4⟩⟩⟩ ∈ found ∧
      s.replyTo 3 (.references "f" ⟨1, 6⟩ false) =
        some (.ok (.locations (found.erase ⟨"f", ⟨⟨0, 1⟩, ⟨0, 4⟩⟩⟩))) := by
  have hdef : (scanDefinitions "f" " b-c = x\nd = <b-c>".toList).get? "b-c".toList =
    some ⟨"f", ⟨⟨0, 1⟩, ⟨0, 4⟩⟩⟩ := by decide
  obtain ⟨_, hreplies⟩ := definition_site_is_a_reference "f" (by decide) hdef (by decide)
  obtain ⟨found, hwith, _, hmem, hwithout⟩ := hreplies none
    [(1, .request (.start (.ok none))), (2, .notification (.opened "f" " b-c = x\nd = <b-c>".toList 1))]
    3 ⟨1, 6⟩ ⟨⟨1, 5⟩, ⟨1, 8⟩⟩ _ rfl rfl rfl (by decide)
  exact ⟨found, hwith, hmem, hwithout⟩

/-- Behind a last hyphen the word search sees the end of a word only where another word
follows. So it does not find the definition of `a-`, and it does find `a-` in `a-b`,
which is another rule. -/
theorem a_last_hyphen_hides_the_definition :
    Text.bytes "a- = x".toList < UInt32.size ∧
      (scanDefinitions "f" "a- = x".toList).get? "a-".toList = some ⟨"f", ⟨⟨0, 0⟩, ⟨0, 2⟩⟩⟩ ∧
      (⟨⟨"f", ⟨⟨0, 0⟩, ⟨0, 2⟩⟩⟩, false⟩ : Reference) ∉
        scanReferences "f" "a- = x".toList "a-".toList ∧
      (opened "a- = x".toList).replyTo 3 (.references "f" ⟨0, 0⟩ true) = some (.ok (.locations [])) ∧
      scanReferences "f" "a- = x\na-b = y".toList "a-".toList = [⟨⟨"f", ⟨⟨1, 0⟩, ⟨1, 2⟩⟩⟩, false⟩] :=
  ⟨by decide, by decide, by decide, rfl, by decide⟩

end Session

end AbnfServer
