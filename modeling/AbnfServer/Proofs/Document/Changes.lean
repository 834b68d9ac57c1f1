-- Documents under changes. Whatever a document has been through, its index is that of the
-- text it has now, so it answers as if it were new, and a change finds its range in the
-- text that the changes before it have left.
import AbnfServer.Proofs.Answers.Edits

namespace AbnfServer

open Text

/-! ## Calls -/

/-- A call that gives a document another text and another version. -/
inductive DocumentCall
  | setContent (text : Text) (version : Int)
  | applyChanges (changes : List Change) (version : Int)

namespace DocumentCall

/-- What a call makes of a text. It needs to know nothing but the text. -/
def retext (t : Text) : DocumentCall → Text
  | .setContent text _ => text
  | .applyChanges changes _ => changes.foldl Change.apply t

def version : DocumentCall → Int
  | .setContent _ version => version
  | .applyChanges _ version => version

end DocumentCall

/-- A change whose range lies between two boundaries of the text replaces the bytes
between them. -/
theorem Change.apply_rangeOf {t : Text} {start stop : Nat} (ht : t.Addressable) (hle : start ≤ stop)
    (hstart : t.Boundary start) (hstop : t.Boundary stop) (newText : Text) :
    ∃ a m b, t = a ++ m ++ b ∧ a.bytes = start ∧ (a ++ m).bytes = stop ∧
      Change.apply t ⟨some ((LineIndex.ofText t).rangeOf start stop), newText⟩ = a ++ newText ++ b := by
  obtain ⟨a, m, b, rfl, rfl, rfl⟩ := hstart.cut hstop hle
  refine ⟨a, m, b, rfl, rfl, rfl, ?_⟩
  rw [LineIndex.rangeOf_bytes]
  exact Swap.apply_change ht newText b

namespace Document

variable {d e : Document}

/-- The document after a call. -/
def call (d : Document) : DocumentCall → Document
  | .setContent text version => d.setContent text version
  | .applyChanges changes version => d.applyChanges changes version

/-- The document after some calls. -/
def run (d : Document) (calls : List DocumentCall) : Document := calls.foldl call d

/-- Two documents that answer all questions about their texts alike. -/
structure AnswersLike (d e : Document) : Prop where
  lineCount : d.lineCount = e.lineCount
  lineText? : ∀ line, d.lineText? line = e.lineText? line
  offsetOf? : ∀ p, d.offsetOf? p = e.offsetOf? p
  positionOf : ∀ offset, d.positionOf offset = e.positionOf offset
  fullRange : d.fullRange = e.fullRange
  wordAt? : ∀ p, d.wordAt? p = e.wordAt? p

/-! ## The index -/

/-- The index of a document is that of its text. -/
def Indexed (d : Document) : Prop := d.index = .ofText d.text

theorem indexed_new (uri : String) (text : Text) (version : Int) : (new uri text version).Indexed := rfl

theorem Indexed.eq_new (h : d.Indexed) : d = new d.uri d.text d.version := by
  unfold new
  rw [← h]

theorem Indexed.applyChanges_eq (h : d.Indexed) (changes : List Change) (version : Int) :
    d.applyChanges changes version = new d.uri (changes.foldl Change.apply d.text) version := by
  rw [h.eq_new]
  exact Session.applyChanges_new ..

/-- A call leaves a document with the text that it makes, and with the index of that text. -/
theorem Indexed.call_eq (h : d.Indexed) (x : DocumentCall) :
    d.call x = new d.uri (x.retext d.text) x.version := by
  cases x with
  | setContent text version => rfl
  | applyChanges changes version => exact h.applyChanges_eq changes version

theorem Indexed.run (h : d.Indexed) (calls : List DocumentCall) :
    (d.run calls).Indexed ∧ (d.run calls).text = calls.foldl DocumentCall.retext d.text := by
  induction calls generalizing d with
  | nil => exact ⟨h, rfl⟩
  | cons x calls ih =>
    have hcall : d.run (x :: calls) = (new d.uri (x.retext d.text) x.version).run calls :=
      congrArg (fun e => Document.run e calls) (h.call_eq x)
    rw [hcall]
    exact ih (indexed_new _ _ _)

/-- What a document answers depends on its text and its index alone. -/
theorem Indexed.answersLike_new (h : d.Indexed) (uri : String) (version : Int) :
    d.AnswersLike (new uri d.text version) := by
  rw [h.eq_new]
  exact ⟨rfl, fun _ => rfl, fun _ => rfl, fun _ => rfl, rfl, fun _ => rfl⟩

/-! ## Batches of changes -/

/-- A batch does what its two parts do in turn, whatever version is told with the first. -/
theorem Indexed.applyChanges_append (h : d.Indexed) (before after : List Change) (v version : Int) :
    d.applyChanges (before ++ after) version = (d.applyChanges before v).applyChanges after version := by
  rw [h.applyChanges_eq, h.applyChanges_eq before, (indexed_new _ _ _).applyChanges_eq, List.foldl_append]
  rfl

/-- In a batch, a change whose range lies between two boundaries of the text that the
changes before it have left replaces the bytes between them, and the batch goes on from
there. -/
theorem Indexed.applyChanges_rangeOf (h : d.Indexed) (before after : List Change) (version : Int)
    {start stop : Nat} (newText : Text) (hsize : (d.applyChanges before version).text.bytes < UInt32.size)
    (hle : start ≤ stop) (hstart : (d.applyChanges before version).text.Boundary start)
    (hstop : (d.applyChanges before version).text.Boundary stop) :
    ∃ a m b, (d.applyChanges before version).text = a ++ m ++ b ∧ a.bytes = start ∧
      (a ++ m).bytes = stop ∧
      d.applyChanges (before ++ ⟨some ((LineIndex.ofText (d.applyChanges before version).text).rangeOf
        start stop), newText⟩ :: after) version =
        (new d.uri (a ++ newText ++ b) version).applyChanges after version := by
  obtain ⟨a, m, b, ht, ha, hm, hput⟩ :=
    Change.apply_rangeOf (addressable_of_bytes_lt hsize) hle hstart hstop newText
  refine ⟨a, m, b, ht, ha, hm, ?_⟩
  have hcurrent : (d.applyChanges before version).Indexed := by
    rw [h.applyChanges_eq]
    exact indexed_new _ _ _
  rw [h.applyChanges_append before _ version, hcurrent.applyChanges_eq, List.foldl_cons, hput,
    (indexed_new _ _ _).applyChanges_eq]
  rw [h.applyChanges_eq]
  rfl

/-! ## The law -/

/-- After any calls, a document answers every question as a new one with its text does,
and its text is what the calls have made of the first one. A batch of changes does what
its parts do in turn, so each range is looked up in the text that is there by then; when
it is the range of two boundaries of that text, the bytes between them are replaced. -/
theorem documents_answer_from_their_text (uri : String) (text : Text) (version : Int)
    (calls : List DocumentCall) :
    let d := (new uri text version).run calls
    d.AnswersLike (new uri d.text d.version) ∧ d.text = calls.foldl DocumentCall.retext text ∧
      (∀ before after v w, d.applyChanges (before ++ after) w =
        (d.applyChanges before v).applyChanges after w) ∧
      ∀ before after w start stop newText,
        let current := (d.applyChanges before w).text
        current.bytes < UInt32.size → start ≤ stop → current.Boundary start → current.Boundary stop →
          ∃ a m b, current = a ++ m ++ b ∧ a.bytes = start ∧ (a ++ m).bytes = stop ∧
            d.applyChanges
                (before ++ ⟨some ((LineIndex.ofText current).rangeOf start stop), newText⟩ :: after) w =
              (new d.uri (a ++ newText ++ b) w).applyChanges after w := by
  intro d
  obtain ⟨hindexed, htext⟩ := (indexed_new uri text version).run calls
  exact ⟨hindexed.answersLike_new uri _, htext, hindexed.applyChanges_append,
    fun before after w _ _ newText => hindexed.applyChanges_rangeOf before after w newText⟩

/-- A batch in which one change has no lines in the text, one adds a line, and one lies on
a line that was not there before. -/
theorem a_batch_goes_by_the_lines_it_makes :
    let d := (new "f" "é".toList 1).run [.setContent "a\nb".toList 2]
    let before : List Change := [⟨some ⟨⟨7, 0⟩, ⟨7, 1⟩⟩, "x".toList⟩, ⟨some ⟨⟨0, 1⟩, ⟨0, 1⟩⟩, "\nc".toList⟩]
    d.AnswersLike (new "f" "a\nb".toList 2) ∧
      d.applyChanges (before ++ [⟨some ⟨⟨2, 0⟩, ⟨2, 1⟩⟩, "d".toList⟩]) 3 = new "f" "a\nc\nd".toList 3 := by
  intro d before
  obtain ⟨hnew, htext, _, hrange⟩ :=
    documents_answer_from_their_text "f" "é".toList 1 [.setContent "a\nb".toList 2]
  have hcurrent : (d.applyChanges before 3).text = "a\nc\nb".toList := by decide
  obtain ⟨a, m, b, hcut, ha, hm, hbatch⟩ := hrange before [] 3 4 5 "d".toList (by decide) (by decide)
    ⟨"a\nc\n".toList, "b".toList, by decide, by decide⟩ ⟨"a\nc\nb".toList, [], by decide, by decide⟩
  have hplace : (LineIndex.ofText (d.applyChanges before 3).text).rangeOf 4 5 = ⟨⟨2, 0⟩, ⟨2, 1⟩⟩ := by decide
  have hwhole : a ++ m ++ b = "a\nc\nb".toList ++ [] := hcut.symm.trans hcurrent
  obtain ⟨hfront, rfl⟩ := append_of_bytes_eq hwhole hm
  have hline : a ++ m = "a\nc\n".toList ++ "b".toList := hfront
  obtain ⟨rfl, rfl⟩ := append_of_bytes_eq hline ha
  rw [hplace] at hbatch
  exact ⟨hnew, hbatch⟩

end Document

end AbnfServer
