-- What an answer to the preparation of a rename is worth: whether the rename that
-- follows goes through, and when it edits the word that the answer points at.
import AbnfServer.Proofs.Answers.RenameEdits
import AbnfServer.Proofs.Answers.Session
import AbnfServer.Proofs.Rule.LineSearch
import AbnfServer.Proofs.Rule.WordCoverage

namespace AbnfServer

open Rule

/-! ## One document -/

namespace Scanned

variable {c : Catalog} {d : Document} {place : Position} {word newName : Text} {r : Range}
  {e : Refusal}

/-- An answered range is that of a word which the document defines as a rule. -/
theorem prepareRename_eq_range_iff :
    prepareRename c d place = .ok (.range r) ↔
      ∃ word, d.wordAt? place = some (word, r) ∧
        (scanDefinitions d.uri d.text).contains word = true := by
  unfold prepareRename Dict.contains
  cases d.wordAt? place with
  | none => simp
  | some w =>
    obtain ⟨word, range⟩ := w
    cases hl : (scanDefinitions d.uri d.text).get? word with
    | none => simp [hl]
    | some l => simp [hl]

theorem rename_of_word (hword : d.wordAt? place = some (word, r))
    (hdef : (scanDefinitions d.uri d.text).contains word = true) (hnew : isName newName = true) :
    (rename c d place newName).1 =
      .ok (.workspaceEdit d.uri (planEdits d.text (scanReferences d.uri d.text word) newName)) := by
  have hplan : Resolver.scannedPlan d word newName =
      .ok (planEdits d.text (scanReferences d.uri d.text word) newName) := by
    rw [Resolver.scannedPlan, Resolver.scannedVerdict, hnew, hdef]
    rfl
  unfold rename
  rw [hword]
  simp only [hplan]

theorem rename_of_refused (h : prepareRename c d place = .error e) (newName : Text) :
    ∃ e', (rename c d place newName).1 = .error e' := by
  unfold prepareRename at h
  split at h
  · cases h
  · next word range hword =>
    split at h
    · next hnone =>
      have hdef : (scanDefinitions d.uri d.text).contains word = false := by
        rw [Dict.contains, hnone]
        rfl
      unfold rename
      rw [hword]
      by_cases hnew : isName newName = true
      · simp [Resolver.scannedPlan, Resolver.scannedVerdict, hnew, hdef, Except.map]
      · simp [Resolver.scannedPlan, Resolver.scannedVerdict, hnew, Except.map]
    · cases h

theorem rename_of_nothing (h : prepareRename c d place = .ok .nothing) (newName : Text) :
    (rename c d place newName).1 = .ok .nothing := by
  unfold prepareRename at h
  split at h
  · next hword =>
    unfold rename
    rw [hword]
  · split at h <;> cases h

end Scanned

/-! ## One session -/

namespace Session

/-- What a session replies to a query, when it says anything. -/
def replyTo (s : Session) (now : Nanos) (q : Query) : Option Reply :=
  (s.receive now (.request (.query q))).1.bind Effects.reply

/-- A session after a query. -/
def asked (s : Session) (now : Nanos) (q : Query) : Session := (s.receive now (.request (.query q))).2

variable {s : Session} {uri : String} {d : Document} {now later : Nanos} {q p : Query} {a : Answer}

theorem receive_query (hrun : s.phase = .running) (now : Nanos) (q : Query) :
    s.receive now (.request (.query q)) =
      (some ⟨some (s.ask now q).1, (s.ask now q).2.1⟩, { s with resolver := (s.ask now q).2.2 }) := by
  simp only [receive, respond, hrun, serve]

/-- A running session answers from the text of the open document. -/
theorem replyTo_running (h : s.Sound) (hrun : s.phase = .running)
    (hd : s.documents.get? q.uri = some d) (now : Nanos) :
    s.replyTo now q = some (q.answerFor s.settings.locale.catalog s.settings.formatting d).1 := by
  obtain ⟨hask, _⟩ := ask_spec h now q
  rw [hd, Option.map_some, Query.answer, ← Query.answerFor_version _ _ q.uri d.text d.version,
    ← h.indexed q.uri d hd] at hask
  rw [replyTo, receive_query hrun]
  exact congrArg (fun p => some p.1) hask

/-- A query leaves a running session as it was, but for what is remembered. -/
theorem replyTo_asked (h : s.Sound) (hrun : s.phase = .running) (now later : Nanos) (q : Query)
    (hd : s.documents.get? p.uri = some d) :
    (s.asked now q).replyTo later p =
      some (p.answerFor s.settings.locale.catalog s.settings.formatting d).1 := by
  have hsound : (s.asked now q).Sound := sound_receive h now _
  have hasked : s.asked now q = { s with resolver := (s.ask now q).2.2 } := by
    rw [asked, receive_query hrun]
  rw [hasked] at hsound ⊢
  exact replyTo_running hsound hrun hd later

/-- A session that does not run refuses every query alike, or keeps silent. -/
theorem replyTo_not_running (hrun : s.phase ≠ .running) (now later : Nanos) (q p : Query) :
    s.replyTo now q ≠ some (.ok a) ∧ (s.asked now q).replyTo later p = s.replyTo now q := by
  obtain ⟨phase, settings, resolver, documents⟩ := s
  cases phase with
  | running => exact absurd rfl hrun
  | uninitialized => exact ⟨fun h => (by cases h), rfl⟩
  | shutDown => exact ⟨fun h => (by cases h), rfl⟩
  | exited => exact ⟨fun h => (by cases h), rfl⟩

/-! ## The law -/

/-- For every open document whose places are positions: when the preparation of a
rename answers a range, a word stands there, the rename to any valid name goes
through, and `Reaches` tells whether its edits cover the range. When the preparation
is refused, so is every rename, and when it finds no word, no rename does anything. -/
theorem prepared_rename_goes_through (locale : Option Locale) (messages : List (Nanos × Message))
    (now later : Nanos) (place : Position) {uri : String} {d : Document}
    (hopen : ((new locale).run messages).documents.get? uri = some d) (ht : d.text.Addressable) :
    let s := (new locale).run messages
    let prepared := s.replyTo now (.prepareRename uri place)
    let renamed (newName : Text) :=
      (s.asked now (.prepareRename uri place)).replyTo later (.rename uri place newName)
    (∀ r, prepared = some (.ok (.range r)) →
      ∃ before word after, Stands d.text before word after ∧
        r = ⟨before.position, (before ++ word).position⟩ ∧
        ∀ newName, isName newName = true →
          ∃ edits, renamed newName = some (.ok (.workspaceEdit uri edits)) ∧
            ((∃ e ∈ edits, e.range.Covers r) ↔ Reaches edits before word after)) ∧
    (∀ e, prepared = some (.error e) → ∀ newName, ∃ e', renamed newName = some (.error e')) ∧
    (prepared = some (.ok .nothing) → ∀ newName, renamed newName = some (.ok .nothing)) := by
  generalize hs : (new locale).run messages = s at hopen
  have hsound : s.Sound := by
    rw [← hs]
    exact sound_run (sound_new locale) messages
  simp only
  by_cases hrun : s.phase = .running
  · have hnew := hsound.indexed uri d hopen
    have huri : d.uri = uri := by rw [hnew]; rfl
    rw [replyTo_running (q := .prepareRename uri place) hsound hrun hopen]
    have hrenamed (newName : Text) :=
      replyTo_asked (p := .rename uri place newName) hsound hrun now later (.prepareRename uri place) hopen
    simp only [hrenamed, Query.answerFor, Option.some.injEq]
    refine ⟨?_, ?_, ?_⟩
    · intro r hr
      obtain ⟨word, hword, hdef⟩ := Scanned.prepareRename_eq_range_iff.mp hr
      have hname := isName_of_mem_definedNames ((contains_scanDefinitions d.uri d.text word).mp hdef)
      obtain ⟨before, after, hstands, rfl⟩ := Document.wordAt?_stands (hnew ▸ hword)
      refine ⟨before, word, after, hstands, rfl, ?_⟩
      intro newName hvalid
      have hedits := Scanned.rename_of_word (c := s.settings.locale.catalog) hword hdef hvalid
      rw [huri] at hedits
      exact ⟨_, hedits, hstands.covered_iff ht hname uri newName⟩
    · exact fun e he => Scanned.rename_of_refused he
    · exact Scanned.rename_of_nothing
  · refine ⟨?_, ?_, ?_⟩
    · intro r hr
      exact absurd hr (replyTo_not_running hrun now later _ (.rename uri place [])).1
    · intro e he newName
      exact ⟨e, (replyTo_not_running (a := .nothing) hrun now later _ _).2.trans he⟩
    · intro h
      exact absurd h (replyTo_not_running hrun now later _ (.rename uri place [])).1

/-- A session that has one open document. -/
def opened (text : Text) : Session :=
  (new none).run [(1, .request (.start (.ok none))), (2, .notification (.opened "f" text 1))]

/-- A reference is renamed from where it stands. -/
theorem a_reference_is_prepared_and_renamed :
    let s := opened "a = x\nb = a".toList
    s.replyTo 3 (.prepareRename "f" ⟨1, 4⟩) = some (.ok (.range ⟨⟨1, 4⟩, ⟨1, 5⟩⟩)) ∧
      ∃ edits, (s.asked 3 (.prepareRename "f" ⟨1, 4⟩)).replyTo 4 (.rename "f" ⟨1, 4⟩ "c".toList) =
          some (.ok (.workspaceEdit "f" edits)) ∧ ∃ e ∈ edits, e.range.Covers ⟨⟨1, 4⟩, ⟨1, 5⟩⟩ := by
  have hopen : (opened "a = x\nb = a".toList).documents.get? "f" =
    some (.new "f" "a = x\nb = a".toList 1) := rfl
  have hprepared : (opened "a = x\nb = a".toList).replyTo 3 (.prepareRename "f" ⟨1, 4⟩) =
    some (.ok (.range ⟨⟨1, 4⟩, ⟨1, 5⟩⟩)) := rfl
  have hedits : ((opened "a = x\nb = a".toList).asked 3 (.prepareRename "f" ⟨1, 4⟩)).replyTo 4
      (.rename "f" ⟨1, 4⟩ "c".toList) = some (.ok (.workspaceEdit "f"
        [⟨⟨⟨0, 0⟩, ⟨0, 1⟩⟩, "c".toList⟩, ⟨⟨⟨1, 4⟩, ⟨1, 5⟩⟩, "c".toList⟩])) := by cbv
  obtain ⟨hrange, _⟩ := prepared_rename_goes_through none _ 3 4 ⟨1, 4⟩ hopen
    (Text.addressable_of_bytes_lt (by decide))
  obtain ⟨_, _, _, _, _, hrename⟩ := hrange _ hprepared
  obtain ⟨edits, hreply, _⟩ := hrename "c".toList (by decide)
  refine ⟨hprepared, edits, hreply, ?_⟩
  have hsame := hedits.symm.trans hreply
  cases hsame
  decide

/-! ## Renames that miss the word -/

/-- The preparation of a rename answers a range, and the rename, which goes through,
leaves the text there as it is. -/
structure Undelivered (text : Text) (place : Position) (newName : Text) (r : Range) : Prop where
  valid : isName newName = true
  prepared : (opened text).replyTo 3 (.prepareRename "f" place) = some (.ok (.range r))
  missed : ∃ edits, ((opened text).asked 3 (.prepareRename "f" place)).replyTo 4
    (.rename "f" place newName) = some (.ok (.workspaceEdit "f" edits)) ∧
      ∀ e ∈ edits, ¬ e.range.Covers r

/-- A low line belongs to the words of the word search, but not to the word under
the cursor. -/
theorem undelivered_behind_low_line : Undelivered "a = _a".toList ⟨0, 5⟩ "c".toList ⟨⟨0, 5⟩, ⟨0, 6⟩⟩ where
  valid := by decide
  prepared := rfl
  missed := ⟨[⟨⟨⟨0, 0⟩, ⟨0, 1⟩⟩, "c".toList⟩], by cbv, by decide⟩

/-- Between a last hyphen and a blank the word search sees no end of a word. -/
theorem undelivered_with_last_hyphen : Undelivered "a- = x".toList ⟨0, 0⟩ "c".toList ⟨⟨0, 0⟩, ⟨0, 2⟩⟩ where
  valid := by decide
  prepared := rfl
  missed := ⟨[], by cbv, by decide⟩

/-- The bare `a` touches the `<a>` in front of it. -/
theorem undelivered_behind_brackets : Undelivered "a = <a>a".toList ⟨0, 7⟩ "c".toList ⟨⟨0, 7⟩, ⟨0, 8⟩⟩ where
  valid := by decide
  prepared := rfl
  missed := ⟨[⟨⟨⟨0, 0⟩, ⟨0, 1⟩⟩, "c".toList⟩, ⟨⟨⟨0, 4⟩, ⟨0, 7⟩⟩, "<c>".toList⟩], by cbv, by decide⟩

theorem undelivered_of_ranges {text word newName : Text} {place : Position} {r : Range}
    (hword : (Document.new "f" text 1).wordAt? place = some (word, r))
    (hdef : (scanDefinitions "f" text).contains word = true) (hnew : isName newName = true)
    (hleft : ∀ a ∈ select ((scanReferences "f" text word).map fun r => r.location.range),
      ¬ a.Covers r) : Undelivered text place newName r := by
  have hsound : (opened text).Sound := sound_run (sound_new none) _
  have hopen : (opened text).documents.get? "f" = some (.new "f" text 1) := rfl
  refine ⟨hnew, ?_, planEdits text (scanReferences "f" text word) newName, ?_, ?_⟩
  · rw [replyTo_running (q := .prepareRename "f" place) hsound rfl hopen, Query.answerFor,
      Scanned.prepareRename_eq_range_iff.mpr ⟨word, hword, hdef⟩]
  · rw [replyTo_asked (p := .rename "f" place newName) hsound rfl 3 4 _ hopen, Query.answerFor,
      Scanned.rename_of_word hword hdef hnew]
    rfl
  · intro e he
    obtain ⟨a, ha, rfl⟩ := List.mem_map.mp he
    exact hleft a ha

/-! Behind `k` newlines, where `k` is no line number of a position any more, a
reference is reported in the first line, and the rule there touches it. -/

section Far

variable {k : Nat}

/-- A rule on the first line, and a reference to it at the start of line `k`. -/
def farWord (k : Nat) : Text := " ab =".toList ++ List.replicate k '\n' ++ "ab".toList

theorem offsets_newlines {z : Search} (hp : z.pattern ≠ []) (hz : z.Separates '\n') (k : Nat) (t : Text) :
    z.offsets (List.replicate k '\n' ++ t) = (z.offsets t).map (· + k) := by
  induction k with
  | zero => simp
  | succ k ih =>
    have hcut := Search.offsets_cut hp hz [] (List.replicate k '\n' ++ t)
    have hnone : z.offsets [] = [] := List.length_eq_zero_iff.mp (Search.count_nil z)
    have hsize : Text.bytes ([] ++ ['\n']) = 1 := rfl
    rw [List.nil_append, hnone, List.nil_append, ih, List.map_map, hsize] at hcut
    rw [List.replicate_succ, List.cons_append, hcut]
    apply List.map_congr_left
    intro o _
    exact Nat.add_assoc o k 1

theorem scanReferences_farWord (k : Nat) :
    scanReferences "f" (farWord (k + 1)) "ab".toList =
      [⟨⟨"f", ⟨⟨0, 1⟩, ⟨0, 3⟩⟩⟩, false⟩, ⟨⟨"f", ⟨.ofNat (k + 1) 0, .ofNat (k + 1) 2⟩⟩, false⟩] := by
  have hoffsets (bracketed : Bool) : (Search.ofName "ab".toList bracketed).offsets (farWord (k + 1)) =
      (Search.ofName "ab".toList bracketed).offsets " ab =".toList ++
        (((Search.ofName "ab".toList bracketed).offsets "ab".toList).map (· + k)).map (· + 6) := by
    have hp : (Search.ofName "ab".toList bracketed).pattern ≠ [] :=
      pattern_ne_nil (by decide) bracketed
    have hz : (Search.ofName "ab".toList bracketed).Separates '\n' :=
      ⟨by cases bracketed <;> decide, rfl⟩
    rw [← offsets_newlines hp hz]
    exact Search.offsets_cut hp hz " ab =".toList (List.replicate k '\n' ++ "ab".toList)
  have hrule : (LineIndex.ofText (farWord (k + 1))).rangeOf 1 (1 + 2) = ⟨⟨0, 1⟩, ⟨0, 3⟩⟩ :=
    LineIndex.rangeOf_bytes " ".toList "ab".toList
      (" =".toList ++ List.replicate (k + 1) '\n' ++ "ab".toList)
  have hfar : (LineIndex.ofText (farWord (k + 1))).rangeOf (0 + k + 6) (0 + k + 6 + 2) =
      ⟨.ofNat (k + 1) 0, .ofNat (k + 1) 2⟩ := by
    have hends := LineIndex.rangeOf_bytes (" ab =".toList ++ List.replicate (k + 1) '\n') "ab".toList []
    have hline : Text.place " ab =".toList = (0, 5) := rfl
    have hword : Text.place "ab".toList = (0, 2) := rfl
    have hbytes : Text.bytes (" ab =".toList ++ List.replicate (k + 1) '\n') = 0 + k + 6 := by
      rw [Text.bytes_append, Resolver.bytes_replicate]
      show 5 + (k + 1) = 0 + k + 6
      omega
    have hfront : Text.place (" ab =".toList ++ List.replicate (k + 1) '\n') = (k + 1, 0) := by
      rw [Text.place_append, hline, Resolver.place_replicate]
      simp
    rw [List.append_nil, Text.position, Text.position, Text.place_append _ "ab".toList, hword, hfront,
      Text.bytes_append _ "ab".toList, hbytes] at hends
    exact hends
  have hsize : (Search.ofName "ab".toList false).pattern.bytes = 2 := rfl
  have hfirst : (Search.ofName "ab".toList false).offsets " ab =".toList = [1] := rfl
  have hlast : (Search.ofName "ab".toList false).offsets "ab".toList = [0] := rfl
  have hnone : (Search.ofName "ab".toList true).offsets " ab =".toList = [] := rfl
  have hnone' : (Search.ofName "ab".toList true).offsets "ab".toList = [] := rfl
  rw [scanReferences, if_neg (by decide)]
  simp only [Rule.referencesOf, hoffsets, hfirst, hlast, hnone, hnone', List.map_cons, List.map_nil,
    List.append_nil, List.cons_append, List.nil_append, hsize, hrule, hfar]

theorem undelivered_farWord (hk : UInt32.ofNat (k + 1) = 0) :
    Undelivered (farWord (k + 1)) ⟨0, 1⟩ "c".toList ⟨⟨0, 1⟩, ⟨0, 3⟩⟩ := by
  have hlines : Text.lines (farWord (k + 1)) =
      " ab =".toList :: Text.lines (List.replicate k '\n' ++ "ab".toList) :=
    Text.lines_append_newline (l := " ab =".toList) (by decide) _
  have hdef : (scanDefinitions "f" (farWord (k + 1))).contains "ab".toList = true := by
    rw [contains_scanDefinitions, definedNames, hlines, List.map_cons]
    exact List.mem_cons_self
  have hword : (Document.new "f" (farWord (k + 1)) 1).wordAt? ⟨0, 1⟩ =
      some ("ab".toList, ⟨⟨0, 1⟩, ⟨0, 3⟩⟩) := by
    simp only [Document.wordAt?, Document.lineText?, Document.new, LineIndex.ofText, hlines]
    rfl
  have hranges : select ((scanReferences "f" (farWord (k + 1)) "ab".toList).map
      fun r => r.location.range) = [⟨⟨0, 0⟩, ⟨0, 2⟩⟩] := by
    rw [scanReferences_farWord, Position.ofNat, Position.ofNat, hk]
    cbv
  apply undelivered_of_ranges hword hdef (by decide)
  rw [hranges]
  decide

end Far

/-- A prepared rename may miss the word: next to a low line, with a last hyphen,
behind an edit that it touches, and when a line has no number as a position. -/
theorem some_prepared_renames_miss :
    Undelivered "a = _a".toList ⟨0, 5⟩ "c".toList ⟨⟨0, 5⟩, ⟨0, 6⟩⟩ ∧
      Undelivered "a- = x".toList ⟨0, 0⟩ "c".toList ⟨⟨0, 0⟩, ⟨0, 2⟩⟩ ∧
      Undelivered "a = <a>a".toList ⟨0, 7⟩ "c".toList ⟨⟨0, 7⟩, ⟨0, 8⟩⟩ ∧
      Undelivered (farWord UInt32.size) ⟨0, 1⟩ "c".toList ⟨⟨0, 1⟩, ⟨0, 3⟩⟩ :=
  ⟨undelivered_behind_low_line, undelivered_with_last_hyphen, undelivered_behind_brackets,
    undelivered_farWord (k := UInt32.size - 1) rfl⟩

end Session

end AbnfServer
