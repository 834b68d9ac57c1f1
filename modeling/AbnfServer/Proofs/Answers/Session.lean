-- The answer to a query depends on the text of its document, the language and
-- the formatting switch alone. What the session remembers of earlier scans, and
-- all that is said about other documents, makes no difference.
import AbnfServer.Proofs.Answers.Resolver
import AbnfServer.Session.Basic

namespace AbnfServer

open Rule

/-! ## Answers from the text alone -/

def Query.uri : Query → String
  | .hover uri _ => uri
  | .definition uri _ => uri
  | .references uri _ _ => uri
  | .outline uri => uri
  | .prepareRename uri _ => uri
  | .rename uri _ _ => uri
  | .format uri => uri

namespace Scanned

/-! A document answers from its text. The answers take no resolver. -/

def hover (c : Catalog) (d : Document) (place : Position) : Reply :=
  match d.wordAt? place with
  | none => .ok .nothing
  | some (word, range) =>
    match Resolver.scannedHover c d word with
    | none => .ok .nothing
    | some h => .ok (.hover (h.markdown c) range)

def definition (d : Document) (place : Position) : Reply :=
  match d.wordAt? place with
  | none => .ok .nothing
  | some (word, _) =>
    match (scanDefinitions d.uri d.text).get? word with
    | none => .ok .nothing
    | some l => .ok (.location l)

def references (d : Document) (place : Position) (declaration : Bool) : Reply :=
  match d.wordAt? place with
  | none => .ok .nothing
  | some (word, _) =>
    let locations := (scanReferences d.uri d.text word).map Reference.location
    let site := (scanDefinitions d.uri d.text).get? word
    .ok (.locations (if declaration then locations else locations.filter fun l => site != some l))

def prepareRename (c : Catalog) (d : Document) (place : Position) : Reply :=
  match d.wordAt? place with
  | none => .ok .nothing
  | some (word, range) =>
    match (scanDefinitions d.uri d.text).get? word with
    | none => .error (.ofRenameError c (.undefinedRule word))
    | some _ => .ok (.range range)

/-- A refusal of a rename is shown to the user as well. -/
def rename (c : Catalog) (d : Document) (place : Position) (newName : Text) : Reply × List Notice :=
  match d.wordAt? place with
  | none => (.ok .nothing, [])
  | some (word, _) =>
    match Resolver.scannedPlan d word newName with
    | .ok edits => (.ok (.workspaceEdit d.uri edits), [])
    | .error e =>
      (.error (.ofRenameError c e),
        [.shown .error (Session.withServerName (c.failedRename (e.message c)))])

def format (formatting : Bool) (d : Document) : Reply :=
  .ok (.edits (if formatting then ((layout? d.text).map fun t => ⟨d.fullRange, t⟩).toList else []))

end Scanned

/-- The answer to a query about a document, from the document alone. -/
def Query.answerFor (c : Catalog) (formatting : Bool) (d : Document) : Query → Reply × List Notice
  | .hover _ place => (Scanned.hover c d place, [])
  | .definition _ place => (Scanned.definition d place, [])
  | .references _ place declaration => (Scanned.references d place declaration, [])
  | .outline _ => (.ok (.outline c.abnfRule (Resolver.scannedSymbols d)), [])
  | .prepareRename _ place => (Scanned.prepareRename c d place, [])
  | .rename _ place newName => Scanned.rename c d place newName
  | .format _ => (Scanned.format formatting d, [])

/-- The answer to a query, from the text of its document alone. There is no
text when the document is not open, and then there is nothing to say. -/
def Query.answer (locale : Locale) (formatting : Bool) (text? : Option Text) (q : Query) :
    Reply × List Notice :=
  match text? with
  | none => (.ok .nothing, [])
  | some text => q.answerFor locale.catalog formatting (.new q.uri text 0)

/-- The version of a document has no part in the answer. -/
theorem Query.answerFor_version (c : Catalog) (formatting : Bool) (uri : String) (text : Text)
    (version : Int) (q : Query) :
    q.answerFor c formatting (.new uri text version) = q.answerFor c formatting (.new uri text 0) := by
  cases q <;> rfl

/-! ## The text of a document, as its client tells it -/

/-- A change of a text. A range is looked up in the text as it is. -/
def Change.apply (t : Text) (c : Change) : Text :=
  match c.range with
  | none => c.text
  | some r =>
    match (LineIndex.ofText t).spanOf? r with
    | none => t
    | some (start, stop) =>
      if start ≤ stop then t.takeBytes start ++ c.text ++ t.dropBytes stop else t

/-- What is left of a text after changes. For a document that is not open, only
a last change to the whole text counts. -/
def changeText? : Option Text → List Change → Option Text
  | some t, changes => some (changes.foldl Change.apply t)
  | none, changes =>
    match changes.getLast? with
    | some ⟨none, text⟩ => some text
    | _ => none

/-- The text of a document after a notification. Those about other documents do
not matter. -/
def Notification.retext (uri : String) (text? : Option Text) : Notification → Option Text
  | .opened u text _ => if u = uri then some text else text?
  | .changed u changes _ => if u = uri then changeText? text? changes else text?
  | .closed u => if u = uri then none else text?
  | _ => text?

def Message.retext (uri : String) (text? : Option Text) : Message → Option Text
  | .notification n => n.retext uri text?
  | .request _ => text?

/-- The text of a document after some messages, none of it known before. -/
def replay (uri : String) (messages : List (Nanos × Message)) : Option Text :=
  messages.foldl (fun text? m => m.2.retext uri text?) none

namespace Session

/-- The session after some messages, each at its time. -/
def run (s : Session) (messages : List (Nanos × Message)) : Session :=
  messages.foldl (fun s m => (s.receive m.1 m.2).2) s

/-! ## The invariant -/

/-- What the open documents say the text of a version is. -/
def TextOf (ds : OpenDocuments) (uri : String) (version : Int) (text : Text) : Prop :=
  ds.get? uri = some (.new uri text version)

/-- The resolver speaks the language of the settings, every open document has
the index of its text, and what is remembered are scans of the open texts. -/
structure Sound (s : Session) : Prop where
  catalog : s.resolver.catalog = s.settings.locale.catalog
  indexed : ∀ uri d, s.documents.get? uri = some d → d = .new uri d.text d.version
  coherent : s.resolver.cache.Coherent (TextOf s.documents)

variable {s : Session}

theorem sound_new (locale : Option Locale) : (new locale).Sound where
  catalog := rfl
  indexed _ _ h := by cases h
  coherent := ScanCache.coherent_new _

/-- The text of an open document is the one that counts for its version. -/
theorem Sound.current (h : s.Sound) {uri : String} {d : Document}
    (hd : s.documents.get? uri = some d) : Resolver.Current (TextOf s.documents) d := by
  have hnew := h.indexed uri d hd
  have huri : d.uri = uri := by rw [hnew]; rfl
  constructor
  · rw [TextOf, huri, hd]
    exact congrArg some hnew
  · intro text ht
    rw [TextOf, huri, hd] at ht
    exact (congrArg Document.text (Option.some.inj ht)).symm

/-! ## One query -/

theorem wordAt?_of_closed {uri : String} (h : s.documents.get? uri = none) (place : Position) :
    s.wordAt? uri place = none := by
  simp [wordAt?, h]

theorem wordAt?_of_open {uri : String} {d : Document} (h : s.documents.get? uri = some d)
    (place : Position) : s.wordAt? uri place = (d.wordAt? place).map fun w => (d, w.1, w.2) := by
  simp only [wordAt?, h, Option.bind_eq_bind, Option.bind_some]
  cases d.wordAt? place <;> rfl

section Open

variable {uri : String} {d : Document} (h : s.Sound) (hd : s.documents.get? uri = some d)

include h hd

theorem hover_spec (now : Nanos) (place : Position) :
    (s.hover now uri place).1 = Scanned.hover s.resolver.catalog d place ∧
      Resolver.Keeps (TextOf s.documents) s.resolver (s.hover now uri place).2 := by
  unfold hover Scanned.hover
  rw [wordAt?_of_open hd]
  cases d.wordAt? place with
  | none => exact ⟨rfl, rfl, h.coherent⟩
  | some w =>
    obtain ⟨htext, hkeep⟩ := Resolver.hoverOf_spec h.coherent (h.current hd) now w.1
    simp only [Option.map_some]
    rw [← htext]
    generalize s.resolver.hoverOf now d w.1 = p at hkeep
    obtain ⟨text, r⟩ := p
    cases text <;> exact ⟨rfl, hkeep⟩

theorem definition_spec (now : Nanos) (place : Position) :
    (s.definition now uri place).1 = Scanned.definition d place ∧
      Resolver.Keeps (TextOf s.documents) s.resolver (s.definition now uri place).2 := by
  unfold definition Scanned.definition
  rw [wordAt?_of_open hd]
  cases d.wordAt? place with
  | none => exact ⟨rfl, rfl, h.coherent⟩
  | some w =>
    obtain ⟨hsite, hkeep⟩ := Resolver.definitionOf_spec h.coherent (h.current hd) now w.1
    simp only [Option.map_some]
    rw [← hsite]
    generalize s.resolver.definitionOf now d w.1 = p at hkeep
    obtain ⟨site, r⟩ := p
    cases site <;> exact ⟨rfl, hkeep⟩

theorem references_spec (now : Nanos) (place : Position) (declaration : Bool) :
    (s.references now uri place declaration).1 = Scanned.references d place declaration ∧
      Resolver.Keeps (TextOf s.documents) s.resolver (s.references now uri place declaration).2 := by
  unfold references Scanned.references
  rw [wordAt?_of_open hd]
  cases d.wordAt? place with
  | none => exact ⟨rfl, rfl, h.coherent⟩
  | some w =>
    obtain ⟨hfound, hkeep⟩ := Resolver.referencesOf_spec h.coherent (h.current hd) now w.1
    simp only [Option.map_some, hfound]
    cases declaration with
    | true => exact ⟨rfl, hkeep⟩
    | false =>
      obtain ⟨hsite, hend⟩ := Resolver.definitionOf_spec hkeep.coherent (h.current hd) now w.1
      simp only [Bool.false_eq_true, if_false, hsite, true_and]
      exact ⟨hend.catalog.trans hkeep.catalog, hend.coherent⟩

theorem prepareRename_spec (now : Nanos) (place : Position) :
    (s.prepareRename now uri place).1 = Scanned.prepareRename s.resolver.catalog d place ∧
      Resolver.Keeps (TextOf s.documents) s.resolver (s.prepareRename now uri place).2 := by
  unfold prepareRename Scanned.prepareRename
  rw [wordAt?_of_open hd]
  cases d.wordAt? place with
  | none => exact ⟨rfl, rfl, h.coherent⟩
  | some w =>
    obtain ⟨hsite, hkeep⟩ := Resolver.definitionOf_spec h.coherent (h.current hd) now w.1
    simp only [Option.map_some]
    rw [← hsite]
    generalize s.resolver.definitionOf now d w.1 = p at hkeep
    obtain ⟨site, r⟩ := p
    cases site <;> exact ⟨rfl, hkeep⟩

theorem rename_spec (now : Nanos) (place : Position) (newName : Text) :
    ((s.rename now uri place newName).1, (s.rename now uri place newName).2.1) =
        Scanned.rename s.resolver.catalog d place newName ∧
      Resolver.Keeps (TextOf s.documents) s.resolver (s.rename now uri place newName).2.2 := by
  have huri : d.uri = uri := by rw [h.indexed uri d hd]; rfl
  unfold rename Scanned.rename
  rw [wordAt?_of_open hd]
  cases d.wordAt? place with
  | none => exact ⟨rfl, rfl, h.coherent⟩
  | some w =>
    obtain ⟨hplan, hkeep⟩ := Resolver.planRename_spec h.coherent (h.current hd) now w.1 newName
    simp only [Option.map_some]
    rw [← hplan]
    generalize s.resolver.planRename now d w.1 newName = p at hkeep
    obtain ⟨result, r⟩ := p
    cases result with
    | ok edits => exact ⟨by simp only [huri], hkeep⟩
    | error e =>
      refine ⟨?_, hkeep⟩
      simp only [h.catalog]
      rfl

end Open

/-- A query is answered from the text of its document, and what is remembered
stays coherent. -/
theorem ask_spec (h : s.Sound) (now : Nanos) (q : Query) :
    ((s.ask now q).1, (s.ask now q).2.1) =
        q.answer s.settings.locale s.settings.formatting ((s.documents.get? q.uri).map Document.text) ∧
      Resolver.Keeps (TextOf s.documents) s.resolver (s.ask now q).2.2 := by
  cases hd : s.documents.get? q.uri with
  | none =>
    cases q <;> simp only [Query.uri] at hd
    all_goals simp only [ask, hover, definition, references, outline, prepareRename, rename, format,
      wordAt?_of_closed hd, hd]
    all_goals exact ⟨rfl, rfl, h.coherent⟩
  | some d =>
    have hversion := Query.answerFor_version s.settings.locale.catalog s.settings.formatting q.uri
      d.text d.version q
    rw [← h.indexed _ d hd] at hversion
    rw [Option.map_some, Query.answer, ← hversion, ← h.catalog]
    have pair {a b : Reply} (hab : a = b) : (a, ([] : List Notice)) = (b, []) := by rw [hab]
    cases q with
    | hover uri place =>
      obtain ⟨ha, hkeep⟩ := hover_spec h hd now place
      exact ⟨pair ha, hkeep⟩
    | definition uri place =>
      obtain ⟨ha, hkeep⟩ := definition_spec h hd now place
      exact ⟨pair ha, hkeep⟩
    | references uri place declaration =>
      obtain ⟨ha, hkeep⟩ := references_spec h hd now place declaration
      exact ⟨pair ha, hkeep⟩
    | outline uri =>
      obtain ⟨hsymbols, hkeep⟩ := Resolver.symbolsOf_spec h.coherent (h.current hd) now
      simp only [Query.uri] at hd
      simp only [ask, outline, hd, hsymbols]
      exact ⟨rfl, hkeep⟩
    | prepareRename uri place =>
      obtain ⟨ha, hkeep⟩ := prepareRename_spec h hd now place
      exact ⟨pair ha, hkeep⟩
    | rename uri place newName => exact rename_spec h hd now place newName
    | format uri =>
      simp only [Query.uri] at hd
      simp only [ask, format, hd]
      exact ⟨rfl, rfl, h.coherent⟩

/-! ## Changes of documents -/

theorem applyChange_new (uri : String) (text : Text) (version : Int) (c : Change) :
    (Document.new uri text version).applyChange c = .new uri (c.apply text) version := by
  unfold Document.applyChange Change.apply
  cases c.range with
  | none => rfl
  | some r =>
    simp only [Document.new]
    cases (LineIndex.ofText text).spanOf? r with
    | none => rfl
    | some p =>
      simp only
      split <;> rfl

theorem applyChanges_new (uri : String) (text : Text) (version newVersion : Int) (cs : List Change) :
    (Document.new uri text version).applyChanges cs newVersion =
      .new uri (cs.foldl Change.apply text) newVersion := by
  unfold Document.applyChanges
  induction cs generalizing text with
  | nil => rfl
  | cons c cs ih =>
    rw [List.foldl_cons, applyChange_new]
    exact ih _

theorem get?_opened (ds : OpenDocuments) (uri : String) (text : Text) (version : Int) (u : String) :
    (ds.opened uri text version).get? u =
      if u = uri then some (.new uri text version) else ds.get? u :=
  Dict.get?_insert

theorem get?_close (ds : OpenDocuments) (uri u : String) :
    (ds.close uri).get? u = if u = uri then none else ds.get? u :=
  Dict.get?_erase

/-- A changed document has the text that its changes leave, and the index of it. -/
theorem get?_changeDocument (h : s.Sound) (uri : String) (cs : List Change) (version : Int)
    (u : String) :
    (changeDocument s.documents uri cs version).get? u =
      if u = uri then
        (changeText? ((s.documents.get? uri).map Document.text) cs).map fun t => .new uri t version
      else s.documents.get? u := by
  unfold changeDocument OpenDocuments.applyChanges? OpenDocuments.update
  cases hd : s.documents.get? uri with
  | some d =>
    simp only [Option.map_some, changeText?]
    rw [h.indexed uri d hd, applyChanges_new]
    exact Dict.get?_insert
  | none =>
    simp only [Option.map_none, changeText?]
    have hclosed : s.documents.get? u = if u = uri then none else s.documents.get? u := by
      split
      · next hu => rw [hu, hd]
      · rfl
    cases cs.getLast? with
    | none => exact hclosed
    | some c =>
      obtain ⟨range, text⟩ := c
      cases range with
      | none => exact get?_opened s.documents uri text version u
      | some r => exact hclosed

/-- A document may change once its scans are forgotten. -/
theorem Sound.redocument (h : s.Sound) {uri : String} {ds : OpenDocuments} {d? : Option Document}
    (hget : ∀ u, ds.get? u = if u = uri then d? else s.documents.get? u)
    (hnew : ∀ d, d? = some d → d = .new uri d.text d.version) :
    Sound { s with documents := ds, resolver := s.resolver.clearDocument uri } where
  catalog := h.catalog
  indexed u d hd := by
    rw [hget u] at hd
    split at hd
    · next hu => exact hu ▸ hnew d hd
    · exact h.indexed u d hd
  coherent := by
    refine (ScanCache.coherent_clearDocument h.coherent uri).mono ?_
    intro u version text ⟨hu, ht⟩
    rw [TextOf, hget u, if_neg hu]
    exact ht

/-! ## One message -/

theorem Sound.keeps (h : s.Sound) {r : Resolver}
    (hr : Resolver.Keeps (TextOf s.documents) s.resolver r) : Sound { s with resolver := r } :=
  ⟨hr.catalog.trans h.catalog, h.indexed, hr.coherent⟩

theorem sound_applySettings (h : s.Sound) (settings : Settings) : (s.applySettings settings).Sound := by
  unfold applySettings
  split
  · next hsame => exact ⟨by rw [← hsame.1]; exact h.catalog, h.indexed, h.coherent⟩
  · exact ⟨rfl, h.indexed, ScanCache.coherent_new _⟩

theorem sound_configure (h : s.Sound) (payload : Json) : (s.configure payload).Sound := by
  unfold configure
  simp only
  split
  · exact h
  · exact sound_applySettings h _

theorem execute_keeps (h : s.Sound) (now : Nanos) (name : String) :
    Resolver.Keeps (TextOf s.documents) s.resolver (s.execute now name).2.2 := by
  unfold execute
  split
  · exact ⟨rfl, ScanCache.coherent_report h.coherent now⟩
  · split
    · exact ⟨rfl, ScanCache.coherent_clearAll _⟩
    · exact ⟨rfl, h.coherent⟩

theorem sound_serve (h : s.Sound) (now : Nanos) (r : Request) : (s.serve now r).2.2.Sound := by
  cases r with
  | query q => exact h.keeps (ask_spec h now q).2
  | command name => exact h.keeps (execute_keeps h now name)
  | shutdown fault => exact ⟨h.catalog, h.indexed, h.coherent⟩
  | start _ | unsupported | malformed _ | misplaced | unknown _ => exact h

theorem sound_respond (h : s.Sound) (now : Nanos) (r : Request) : (s.respond now r).2.2.Sound := by
  unfold respond
  split
  · exact h
  · next options _ =>
    obtain ⟨hc, hi, hk⟩ := sound_applySettings h (s.settings.mergeOptional options)
    exact ⟨hc, hi, hk⟩
  · exact h
  · exact h
  · exact sound_serve h now _
  · exact h

theorem sound_hear (h : s.Sound) (n : Notification) : (s.hear n).2.Sound := by
  cases n with
  | initialized => exact h
  | opened uri text version =>
    refine h.redocument (get?_opened s.documents uri text version) ?_
    intro d hd
    cases hd
    rfl
  | changed uri changes version =>
    refine h.redocument (get?_changeDocument h uri changes version) ?_
    intro d hd
    obtain ⟨t, _, rfl⟩ := Option.map_eq_some_iff.mp hd
    rfl
  | closed uri =>
    refine h.redocument (get?_close s.documents uri) ?_
    intro d hd
    cases hd
  | configured payload => exact sound_configure h payload
  | shutdown => exact ⟨h.catalog, h.indexed, h.coherent⟩
  | exit => exact ⟨h.catalog, h.indexed, h.coherent⟩
  | other => exact h

theorem sound_notified (h : s.Sound) (n : Notification) : (s.notified n).2.Sound := by
  unfold notified
  split
  · exact ⟨h.catalog, h.indexed, h.coherent⟩
  · exact sound_hear h _
  · exact h

/-- Every message keeps the invariant. -/
theorem sound_receive (h : s.Sound) (now : Nanos) (m : Message) : (s.receive now m).2.Sound := by
  unfold receive
  split
  · exact h
  · exact sound_respond h now _
  · exact sound_notified h _

theorem sound_run (h : s.Sound) (messages : List (Nanos × Message)) : (s.run messages).Sound := by
  induction messages generalizing s with
  | nil => exact h
  | cons m messages ih => exact ih (sound_receive h m.1 m.2)

/-! ## Phases -/

/-- A session that was shut down does not run again. -/
def Ended (s : Session) : Prop := s.phase = .shutDown ∨ s.phase = .exited

theorem phase_applySettings (s : Session) (settings : Settings) :
    (s.applySettings settings).phase = s.phase ∧
      (s.applySettings settings).documents = s.documents := by
  unfold applySettings
  split <;> exact ⟨rfl, rfl⟩

theorem phase_configure (s : Session) (payload : Json) :
    (s.configure payload).phase = s.phase ∧ (s.configure payload).documents = s.documents := by
  unfold configure
  simp only
  split
  · exact ⟨rfl, rfl⟩
  · exact phase_applySettings s _

theorem ended_receive (h : s.Ended) (now : Nanos) (m : Message) : (s.receive now m).2.Ended := by
  obtain ⟨phase, settings, resolver, documents⟩ := s
  rcases h with rfl | rfl
  · cases m with
    | request r =>
      cases r with
      | start options => cases options <;> exact Or.inl rfl
      | _ => exact Or.inl rfl
    | notification n =>
      cases n with
      | exit => exact Or.inr rfl
      | _ => exact Or.inl rfl
  · exact Or.inr rfl

theorem ended_run (h : s.Ended) (messages : List (Nanos × Message)) : (s.run messages).Ended := by
  induction messages generalizing s with
  | nil => exact h
  | cons m messages ih => exact ih (ended_receive h m.1 m.2)

/-- A running session goes on with the text that the message leaves, or ends. -/
theorem receive_running (h : s.Sound) (hrun : s.phase = .running) (now : Nanos) (m : Message) :
    (s.receive now m).2.Ended ∨ (s.receive now m).2.phase = .running ∧
      ∀ u, ((s.receive now m).2.documents.get? u).map Document.text =
        m.retext u ((s.documents.get? u).map Document.text) := by
  obtain ⟨phase, settings, resolver, documents⟩ := s
  obtain rfl : phase = .running := hrun
  cases m with
  | request r =>
    cases r with
    | shutdown fault => exact Or.inl (Or.inl rfl)
    | start options => cases options <;> exact Or.inr ⟨rfl, fun u => rfl⟩
    | _ => exact Or.inr ⟨rfl, fun u => rfl⟩
  | notification n =>
    cases n with
    | shutdown => exact Or.inl (Or.inl rfl)
    | exit => exact Or.inl (Or.inr rfl)
    | initialized | other => exact Or.inr ⟨rfl, fun u => rfl⟩
    | opened uri text version =>
      refine Or.inr ⟨rfl, fun u => ?_⟩
      refine (congrArg _ (get?_opened documents uri text version u)).trans ?_
      simp only [Message.retext, Notification.retext, eq_comm (a := u)]
      split <;> rfl
    | changed uri changes version =>
      refine Or.inr ⟨rfl, fun u => ?_⟩
      refine (congrArg _ (get?_changeDocument h uri changes version u)).trans ?_
      simp only [Message.retext, Notification.retext, eq_comm (a := u)]
      split
      · next hu =>
        subst hu
        rw [Option.map_map]
        exact Option.map_id'
      · rfl
    | closed uri =>
      refine Or.inr ⟨rfl, fun u => ?_⟩
      refine (congrArg _ (get?_close documents uri u)).trans ?_
      simp only [Message.retext, Notification.retext, eq_comm (a := u)]
      split <;> rfl
    | configured payload =>
      obtain ⟨hphase, hdocs⟩ := phase_configure ⟨.running, settings, resolver, documents⟩ payload
      exact Or.inr ⟨hphase, fun u => congrArg (fun ds => (OpenDocuments.get? ds u).map Document.text) hdocs⟩

/-- Before the start, nothing is heard of any document. -/
theorem receive_uninitialized (h : s.Sound) (now : Nanos) (m : Message)
    (hm : (s.receive now m).2.phase = .uninitialized) :
    s.phase = .uninitialized ∧ (s.receive now m).2.documents = s.documents := by
  have ended {t : Session} (ht : t.Ended) (hp : t.phase = .uninitialized) : False := by
    rcases ht with ht | ht <;> cases ht.symm.trans hp
  cases hphase : s.phase with
  | shutDown => exact (ended (ended_receive (Or.inl hphase) now m) hm).elim
  | exited => exact (ended (ended_receive (Or.inr hphase) now m) hm).elim
  | running =>
    rcases receive_running h hphase now m with he | ⟨hr, _⟩
    · exact (ended he hm).elim
    · cases hr.symm.trans hm
  | uninitialized =>
    refine ⟨rfl, ?_⟩
    obtain ⟨phase, settings, resolver, documents⟩ := s
    obtain rfl : phase = .uninitialized := hphase
    cases m with
    | request r =>
      cases r with
      | start options =>
        cases options with
        | error fault => rfl
        | ok options => exact (phase_applySettings _ _).2
      | _ => rfl
    | notification n => cases n <;> rfl

theorem run_uninitialized (locale : Option Locale) (messages : List (Nanos × Message))
    (h : ((new locale).run messages).phase = .uninitialized) :
    ((new locale).run messages).documents = {} := by
  induction messages using List.reverseRecOn with
  | nil => rfl
  | append_singleton messages m ih =>
    rw [run, List.foldl_append] at h ⊢
    obtain ⟨hphase, hdocs⟩ := receive_uninitialized (sound_run (sound_new locale) messages) m.1 m.2 h
    exact hdocs.trans (ih hphase)

/-- While a session runs, it holds the texts that the replay gives. -/
theorem run_running (h : s.Sound) (hrun : s.phase = .running) (messages : List (Nanos × Message))
    (hend : (s.run messages).phase = .running) (u : String) :
    ((s.run messages).documents.get? u).map Document.text =
      messages.foldl (fun text? m => m.2.retext u text?) ((s.documents.get? u).map Document.text) := by
  induction messages generalizing s with
  | nil => rfl
  | cons m messages ih =>
    rcases receive_running h hrun m.1 m.2 with hended | ⟨hnext, htext⟩
    · rcases ended_run hended messages with hp | hp
      · cases hp.symm.trans hend
      · cases hp.symm.trans hend
    · rw [List.foldl_cons, ← htext u]
      exact ih (sound_receive h m.1 m.2) hnext hend

/-! ## The law -/

/-- In every session, a query that comes between the start and the shutdown gets
the answer that its document's text gives by a fresh scan, in the language and
with the formatting switch of the current settings. The text is what the
client's own notifications about that document make of it since the start. -/
theorem queries_are_answered_from_the_text (locale : Option Locale)
    (before after : List (Nanos × Message)) (started now : Nanos) (options : Option Json) (q : Query)
    (hbefore : ((new locale).run before).phase = .uninitialized)
    (hrunning : ((new locale).run
      (before ++ (started, .request (.start (.ok options))) :: after)).phase = .running) :
    let s := (new locale).run (before ++ (started, .request (.start (.ok options))) :: after)
    let answer := q.answer s.settings.locale s.settings.formatting (replay q.uri after)
    (s.receive now (.request (.query q))).1 = some ⟨some answer.1, answer.2⟩ := by
  have hsplit : (new locale).run (before ++ (started, .request (.start (.ok options))) :: after) =
      (((new locale).run before).start options).run after := by
    rw [run, List.foldl_append, List.foldl_cons]
    refine congrArg (fun t => List.foldl _ t after) ?_
    show (Session.receive ((new locale).run before) started _).2 = _
    simp only [receive, respond, hbefore]
  rw [hsplit] at hrunning ⊢
  have hsound := sound_run (sound_new locale) before
  have hstart : (((new locale).run before).start options).Sound := by
    obtain ⟨hc, hi, hk⟩ := sound_applySettings hsound
      (((new locale).run before).settings.mergeOptional options)
    exact ⟨hc, hi, hk⟩
  have hdocs : (((new locale).run before).start options).documents = {} :=
    (phase_applySettings _ _).2.trans (run_uninitialized locale before hbefore)
  have htext := run_running hstart rfl after hrunning q.uri
  rw [hdocs] at htext
  obtain ⟨hask, _⟩ := ask_spec (sound_run hstart after) now q
  rw [htext, Prod.mk.injEq] at hask
  obtain ⟨hreply, hnotices⟩ := hask
  simp only [receive, respond, hrunning, serve]
  rw [hreply, hnotices]
  rfl

/-- A session opens a document after its start, and then says where `a` is defined. -/
theorem an_opened_document_is_answered_from_its_text :
    let after : List (Nanos × Message) := [(2, .notification (.opened "f" "a=b".toList 1))]
    let q : Query := .definition "f" ⟨0, 0⟩
    let s := (new none).run ([] ++ (1, .request (.start (.ok none))) :: after)
    ((new none).run []).phase = .uninitialized ∧ s.phase = .running ∧
      (s.receive 3 (.request (.query q))).1 =
        some ⟨some (.ok (.location ⟨"f", ⟨⟨0, 0⟩, ⟨0, 1⟩⟩⟩)), []⟩ := by
  refine ⟨rfl, rfl, ?_⟩
  rw [queries_are_answered_from_the_text none [] _ 1 3 none (.definition "f" ⟨0, 0⟩) rfl rfl]
  rfl

end Session

end AbnfServer
