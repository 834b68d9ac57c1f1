-- The cursor on a definition: the word under it is the rule that is defined there, so the
-- server leads from there to the very same place, and offers to rename it.
import AbnfServer.Proofs.Answers.PrepareRename
import AbnfServer.Proofs.Rule.Sites

namespace AbnfServer

open Rule

variable {uri : String} {t n : Text} {loc : Location} {place : Position}

/-- On a definition, from its start to its end, the cursor selects the rule in its range. -/
theorem Document.wordAt?_of_definition (ht : t.Addressable) (hdef : (scanDefinitions uri t).get? n = some loc)
    (hstart : loc.range.start ≤ place) (hstop : place ≤ loc.range.stop) (docUri : String) (version : Int) :
    (new docUri t version).wordAt? place = some (n, loc.range) := by
  obtain ⟨before, after, hsite, rfl⟩ := exists_site hdef
  exact wordAt?_of_stands ht hsite.stands (ne_nil_of_isName hsite.named) hstart hstop

namespace Scanned

variable {c : Catalog} {d : Document} {word : Text} {r : Range}

theorem definition_of_word (hword : d.wordAt? place = some (word, r))
    (hdef : (scanDefinitions d.uri d.text).get? word = some loc) :
    definition d place = .ok (.location loc) := by
  simp only [definition, hword, hdef]

theorem prepareRename_of_word (hword : d.wordAt? place = some (word, r))
    (hdef : (scanDefinitions d.uri d.text).get? word = some loc) :
    prepareRename c d place = .ok (.range r) := by
  simp only [prepareRename, hword, hdef]

end Scanned

namespace Session

/-- Where a text defines a rule, every position from the start of the name to its end
selects the name, in the range that the table has of it. So from any of them a session in
which the text is open, whatever it remembers, leads to the place in the table and offers
its range for a rename. -/
theorem definition_leads_to_itself (uri : String) {t n : Text} {loc : Location} (place : Position)
    (ht : t.bytes < UInt32.size) (hdef : (scanDefinitions uri t).get? n = some loc)
    (hstart : loc.range.start ≤ place) (hstop : place ≤ loc.range.stop) :
    (∀ docUri version, (Document.new docUri t version).wordAt? place = some (n, loc.range)) ∧
      ∀ (locale : Option Locale) (messages : List (Nanos × Message)) (now : Nanos) (d : Document),
        let s := (new locale).run messages
        s.phase = .running → s.documents.get? uri = some d → d.text = t →
          s.replyTo now (.definition uri place) = some (.ok (.location loc)) ∧
          s.replyTo now (.prepareRename uri place) = some (.ok (.range loc.range)) := by
  have hword := Document.wordAt?_of_definition (Text.addressable_of_bytes_lt ht) hdef hstart hstop
  refine ⟨hword, ?_⟩
  intro locale messages now d s hrun hopen htext
  have hsound : s.Sound := sound_run (sound_new locale) messages
  have hnew : d = .new uri t d.version := by
    rw [← htext]
    exact hsound.indexed uri d hopen
  have hcursor : d.wordAt? place = some (n, loc.range) := by
    rw [hnew]
    exact hword uri d.version
  have hknown : (scanDefinitions d.uri d.text).get? n = some loc := by
    rw [hnew]
    exact hdef
  constructor
  · rw [replyTo_running (q := .definition uri place) hsound hrun hopen, Query.answerFor,
      Scanned.definition_of_word hcursor hknown]
  · rw [replyTo_running (q := .prepareRename uri place) hsound hrun hopen, Query.answerFor,
      Scanned.prepareRename_of_word hcursor hknown]

/-- The second of two definitions, behind a wide blank and with carriage returns around,
asked for from the end of its name in a session that has just begun. -/
theorem the_last_definition_leads_to_itself :
    let t : Text := "a = x\r\n\u3000a\r=/ y".toList
    let s := opened t
    (Document.new "g" t 7).wordAt? ⟨1, 2⟩ = some ("a".toList, ⟨⟨1, 1⟩, ⟨1, 2⟩⟩) ∧
      s.replyTo 3 (.definition "f" ⟨1, 2⟩) = some (.ok (.location ⟨"f", ⟨⟨1, 1⟩, ⟨1, 2⟩⟩⟩)) ∧
      s.replyTo 3 (.prepareRename "f" ⟨1, 2⟩) = some (.ok (.range ⟨⟨1, 1⟩, ⟨1, 2⟩⟩)) := by
  intro t s
  have hdef : (scanDefinitions "f" t).get? "a".toList = some ⟨"f", ⟨⟨1, 1⟩, ⟨1, 2⟩⟩⟩ := by decide
  obtain ⟨hword, hreplies⟩ := definition_leads_to_itself "f" ⟨1, 2⟩ (by decide) hdef (by decide)
    (by decide)
  exact ⟨hword "g" 7, hreplies none
    [(1, .request (.start (.ok none))), (2, .notification (.opened "f" t 1))] 3 _ rfl rfl rfl⟩

end Session

end AbnfServer
