-- What the user is told: a message has its argument in it as it is, so the notice of a
-- refused rename has the very message of the refusal.
import AbnfServer.Proofs.Answers.PrepareRename
import AbnfServer.Proofs.Message.Template

namespace AbnfServer

open Template

/-! ## Messages with an argument -/

namespace Locale

variable (l : Locale)

theorem embeds_notDefined (name : Text) :
    Embeds l.catalog.ruleNotDefined.toList name (l.catalog.notDefined name) := by
  cases l with
  | english =>
    exact embeds_fill "Rule \"".toList "\" is not defined".toList name (by decide) (by decide)
  | chinese => exact embeds_fill "规则 \"".toList "\" 未定义".toList name (by decide) (by decide)

theorem embeds_failedRename (reason : Text) :
    Embeds l.catalog.renameFailed.toList reason (l.catalog.failedRename reason) := by
  cases l with
  | english => exact embeds_fill "Rename failed: ".toList [] reason (by decide) (by decide)
  | chinese => exact embeds_fill "重命名失败: ".toList [] reason (by decide) (by decide)

end Locale

/-! ## The law -/

namespace Session

variable {s : Session} {now : Nanos} {uri : String} {place : Position} {newName message : Text}
  {why : Rule.RenameError} {notices : List Notice}

/-- Along with the refusal of a rename comes a notice for the user, and nothing else. -/
theorem notices_of_refused_rename
    (h : (s.receive now (.request (.query (.rename uri place newName)))).1 =
      some ⟨some (.error (.renameRefused why message)), notices⟩) :
    notices = [.shown .error (withServerName (s.settings.locale.catalog.failedRename message))] := by
  cases hphase : s.phase with
  | running =>
    rw [receive_query hphase, ask, rename] at h
    split at h
    · cases h
    · split at h
      · cases h
      · cases h
        rfl
  | uninitialized | shutDown | exited =>
    simp only [receive, respond, hphase] at h
    cases h

/-- For every template and all arguments there is one cut of the template into the
placeholders that have an argument and characters that stay, and the filled text is its
pieces in order, with each argument as it is in the place of its placeholder: nothing is
read a second time. So a message has its argument in it unchanged, and in every session the
notice of a refused rename has in it, behind the name of the server, the very message of the
refusal. -/
theorem messages_are_filled_in_one_pass :
    (∀ (args : List Text) (template : Text), ∃ pieces,
      (∀ ps, Cut args template ps ↔ ps = pieces) ∧
        fill args template = pieces.flatMap Piece.filled) ∧
    (∀ (l : Locale) (name : Text),
      Embeds l.catalog.ruleNotDefined.toList name
        (Rule.RenameError.message l.catalog (.undefinedRule name))) ∧
    ∀ (s : Session) (now : Nanos) (uri : String) (place : Position) (newName : Text)
      (why : Rule.RenameError) (message : Text) (notices : List Notice),
      (s.receive now (.request (.query (.rename uri place newName)))).1 =
          some ⟨some (.error (.renameRefused why message)), notices⟩ →
        ∃ shown, Embeds s.settings.locale.catalog.renameFailed.toList message shown ∧
          notices = [.shown .error ("abnf-analyzer: ".toList ++ shown)] := by
  refine ⟨?_, fun l => l.embeds_notDefined, ?_⟩
  · intro args template
    obtain ⟨pieces, hcut⟩ := exists_cut args template
    refine ⟨pieces, fun ps => ⟨fun hps => hps.unique hcut, ?_⟩, hcut.fill_eq⟩
    rintro rfl
    exact hcut
  · intro s now uri place newName why message notices h
    exact ⟨_, s.settings.locale.embeds_failedRename message, notices_of_refused_rename h⟩

/-- A leading zero does not count, an argument that looks like a placeholder is put in as it
is, and a placeholder without an argument stays. A rule that is not defined cannot be
renamed, and the user is told so. -/
theorem a_refusal_is_told_as_it_is :
    (∃ pieces, (∀ ps, Cut ["\x7b1\x7d".toList, "b".toList]
          "\x7b01\x7d \x7b1\x7d \x7b0\x7d \x7b2\x7d".toList ps ↔ ps = pieces) ∧
        pieces.flatMap Piece.filled = "b b \x7b1\x7d \x7b2\x7d".toList) ∧
      (((opened "a = x".toList).receive 3 (.request (.query (.rename "f" ⟨0, 4⟩ "c".toList)))).1 =
        some ⟨some (.error (.renameRefused (.undefinedRule "x".toList) "规则 \"x\" 未定义".toList)),
          [.shown .error ("abnf-analyzer: ".toList ++ "重命名失败: 规则 \"x\" 未定义".toList)]⟩) ∧
      ∃ shown, Embeds "重命名失败: \x7b0\x7d".toList "规则 \"x\" 未定义".toList shown ∧
        [Notice.shown .error ("abnf-analyzer: ".toList ++ "重命名失败: 规则 \"x\" 未定义".toList)] =
          [.shown .error ("abnf-analyzer: ".toList ++ shown)] := by
  have hfill : fill ["\x7b1\x7d".toList, "b".toList] "\x7b01\x7d \x7b1\x7d \x7b0\x7d \x7b2\x7d".toList =
      "b b \x7b1\x7d \x7b2\x7d".toList := by cbv
  have hmessage : Locale.chinese.catalog.notDefined "x".toList = "规则 \"x\" 未定义".toList := by
    rw [Catalog.notDefined, Locale.catalog, Catalog.chinese]
    cbv
  have hshown : Locale.chinese.catalog.failedRename "规则 \"x\" 未定义".toList =
      "重命名失败: 规则 \"x\" 未定义".toList := by
    rw [Catalog.failedRename, Locale.catalog, Catalog.chinese]
    cbv
  have h : ((opened "a = x".toList).receive 3 (.request (.query (.rename "f" ⟨0, 4⟩ "c".toList)))).1 =
      some ⟨some (.error (.renameRefused (.undefinedRule "x".toList) "规则 \"x\" 未定义".toList)),
        [.shown .error ("abnf-analyzer: ".toList ++ "重命名失败: 规则 \"x\" 未定义".toList)]⟩ := by
    rw [← hshown, ← hmessage]
    rfl
  have hlocale : (opened "a = x".toList).settings.locale = .chinese := rfl
  obtain ⟨hcut, _, htold⟩ := messages_are_filled_in_one_pass
  obtain ⟨pieces, honly, hpieces⟩ := hcut ["\x7b1\x7d".toList, "b".toList]
    "\x7b01\x7d \x7b1\x7d \x7b0\x7d \x7b2\x7d".toList
  obtain ⟨shown, hembeds, hnotice⟩ := htold _ 3 "f" ⟨0, 4⟩ _ _ _ _ h
  rw [hlocale] at hembeds
  exact ⟨⟨pieces, honly, hpieces.symm.trans hfill⟩, h, shown, hembeds, hnotice⟩

end Session

end AbnfServer
