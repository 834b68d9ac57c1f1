-- What a resolver remembers never shows in its answers, as long as whoever asks
-- tells it of each change of a text. The answers are those of a resolver that
-- remembers nothing and scans the text it is asked about.
import AbnfServer.Message.English
import AbnfServer.Proofs.Cache.Coherence
import AbnfServer.Resolver
import Mathlib.Data.List.Induction

namespace AbnfServer.Resolver

open Rule

/-! ## Questions -/

/-- A question about a document. -/
inductive Question
  | definition (d : Document) (name : Text)
  | references (d : Document) (name : Text)
  | symbols (d : Document)
  | hover (d : Document) (name : Text)
  | validateRename (d : Document) (name newName : Text)
  | planRename (d : Document) (name newName : Text)

/-- The answer to a question. -/
inductive Finding
  | definition (place : Option Location)
  | references (found : List Reference)
  | symbols (symbols : List Symbol)
  | hover (text : Option HoverText)
  | verdict (result : Except RenameError Unit)
  | plan (result : Except RenameError (List Edit))

def Question.document : Question → Document
  | .definition d _ => d
  | .references d _ => d
  | .symbols d => d
  | .hover d _ => d
  | .validateRename d _ _ => d
  | .planRename d _ _ => d

def ask (r : Resolver) (now : Nanos) : Question → Finding × Resolver
  | .definition d name => let (place, r) := r.definitionOf now d name; (.definition place, r)
  | .references d name => let (found, r) := r.referencesOf now d name; (.references found, r)
  | .symbols d => let (symbols, r) := r.symbolsOf now d; (.symbols symbols, r)
  | .hover d name => let (text, r) := r.hoverOf now d name; (.hover text, r)
  | .validateRename d name newName =>
    let (result, r) := r.validateRename now d name newName; (.verdict result, r)
  | .planRename d name newName =>
    let (result, r) := r.planRename now d name newName; (.plan result, r)

/-! ## Answers by a scan -/

def scannedSymbols (d : Document) : List Symbol :=
  ((scanDefinitions d.uri d.text).entries.map fun e => ⟨e.1, e.2⟩).mergeSort symbolLE

def scannedHover (catalog : Catalog) (d : Document) (name : Text) : Option HoverText :=
  match HoverText.ofCoreName? catalog name with
  | some h => some h
  | none => if (scanDefinitions d.uri d.text).contains name then some (.ofUserRule catalog name) else none

def scannedVerdict (d : Document) (name newName : Text) : Except RenameError Unit :=
  if !isName newName then .error (.invalidName newName)
  else if !(scanDefinitions d.uri d.text).contains name then .error (.undefinedRule name)
  else .ok ()

def scannedPlan (d : Document) (name newName : Text) : Except RenameError (List Edit) :=
  (scannedVerdict d name newName).map fun _ =>
    planEdits d.text (scanReferences d.uri d.text name) newName

/-- The answer that a scan of the text gives, with nothing remembered. -/
def Question.scanned (catalog : Catalog) : Question → Finding
  | .definition d name => .definition ((scanDefinitions d.uri d.text).get? name)
  | .references d name => .references (scanReferences d.uri d.text name)
  | .symbols d => .symbols (scannedSymbols d)
  | .hover d name => .hover (scannedHover catalog d name)
  | .validateRename d name newName => .verdict (scannedVerdict d name newName)
  | .planRename d name newName => .plan (scannedPlan d name newName)

/-! ## One question -/

/-- The text of a document is the one text that counts for its version. -/
structure Current (T : String → Int → Text → Prop) (d : Document) : Prop where
  counts : T d.uri d.version d.text
  only : ∀ text, T d.uri d.version text → text = d.text

variable {T : String → Int → Text → Prop} {r : Resolver} {d : Document}

/-- The resolver keeps its catalog, and what it remembers stays coherent. -/
structure Keeps (T : String → Int → Text → Prop) (r s : Resolver) : Prop where
  catalog : s.catalog = r.catalog
  coherent : s.cache.Coherent T

theorem rulesOf_spec (h : r.cache.Coherent T) (hd : Current T d) (now : Nanos) :
    (r.rulesOf now d).1 = scanDefinitions d.uri d.text ∧ Keeps T r (r.rulesOf now d).2 := by
  obtain ⟨hrest, hout⟩ := ScanCache.coherent_rules? h now d.uri d.version
  unfold rulesOf
  generalize r.cache.rules? now d.uri d.version = p at hrest hout
  obtain ⟨known, cache⟩ := p
  cases known with
  | some table =>
    obtain ⟨text, ht, rfl⟩ := hout table rfl
    exact ⟨by rw [hd.only text ht], rfl, hrest⟩
  | none => exact ⟨rfl, rfl, ScanCache.coherent_setRules hrest now hd.counts⟩

theorem definitionOf_spec (h : r.cache.Coherent T) (hd : Current T d) (now : Nanos) (name : Text) :
    (r.definitionOf now d name).1 = (scanDefinitions d.uri d.text).get? name ∧
      Keeps T r (r.definitionOf now d name).2 := by
  obtain ⟨htable, hkeep⟩ := rulesOf_spec h hd now
  exact ⟨congrArg (fun table : SymbolTable => table.get? name) htable, hkeep⟩

theorem referencesOf_spec (h : r.cache.Coherent T) (hd : Current T d) (now : Nanos) (name : Text) :
    (r.referencesOf now d name).1 = scanReferences d.uri d.text name ∧
      Keeps T r (r.referencesOf now d name).2 := by
  obtain ⟨hrest, hout⟩ := ScanCache.coherent_references? h now d.uri d.version name
  unfold referencesOf
  generalize r.cache.references? now d.uri d.version name = p at hrest hout
  obtain ⟨known, cache⟩ := p
  cases known with
  | some found =>
    obtain ⟨text, ht, rfl⟩ := hout found rfl
    exact ⟨by rw [hd.only text ht], rfl, hrest⟩
  | none => exact ⟨rfl, rfl, ScanCache.coherent_setReferences hrest now hd.counts name⟩

theorem symbolsOf_spec (h : r.cache.Coherent T) (hd : Current T d) (now : Nanos) :
    (r.symbolsOf now d).1 = scannedSymbols d ∧ Keeps T r (r.symbolsOf now d).2 := by
  obtain ⟨htable, hkeep⟩ := rulesOf_spec h hd now
  exact ⟨by simp only [symbolsOf, htable, scannedSymbols], hkeep⟩

theorem hoverOf_spec (h : r.cache.Coherent T) (hd : Current T d) (now : Nanos) (name : Text) :
    (r.hoverOf now d name).1 = scannedHover r.catalog d name ∧ Keeps T r (r.hoverOf now d name).2 := by
  obtain ⟨htable, hkeep⟩ := rulesOf_spec h hd now
  unfold hoverOf scannedHover
  cases HoverText.ofCoreName? r.catalog name with
  | some text => exact ⟨rfl, rfl, h⟩
  | none => exact ⟨by simp only [htable, hkeep.catalog], hkeep⟩

/-- What a check lets through is a table that needs to be remembered, if any. -/
theorem checkRename_spec (h : r.cache.Coherent T) (hd : Current T d) (now : Nanos)
    (name newName : Text) :
    (r.checkRename now d name newName).1.map (fun _ => ()) = scannedVerdict d name newName ∧
      Keeps T r (r.checkRename now d name newName).2 ∧
      ∀ table, (r.checkRename now d name newName).1 = .ok (some table) →
        table = scanDefinitions d.uri d.text := by
  obtain ⟨hrest, hout⟩ := ScanCache.coherent_rules? h now d.uri d.version
  unfold checkRename scannedVerdict
  split
  · exact ⟨rfl, ⟨rfl, h⟩, fun table ht => by cases ht⟩
  · generalize r.cache.rules? now d.uri d.version = p at hrest hout
    obtain ⟨known, cache⟩ := p
    have htable : known.getD (scanDefinitions d.uri d.text) = scanDefinitions d.uri d.text := by
      cases known with
      | none => rfl
      | some table =>
        obtain ⟨text, ht, rfl⟩ := hout table rfl
        rw [Option.getD_some, hd.only text ht]
    simp only [htable]
    split
    · exact ⟨rfl, ⟨rfl, hrest⟩, fun table ht => by cases ht⟩
    · refine ⟨rfl, ⟨rfl, hrest⟩, ?_⟩
      intro table ht
      split at ht
      · cases ht
      · cases ht
        rfl

theorem planRename_spec (h : r.cache.Coherent T) (hd : Current T d) (now : Nanos)
    (name newName : Text) :
    (r.planRename now d name newName).1 = scannedPlan d name newName ∧
      Keeps T r (r.planRename now d name newName).2 := by
  obtain ⟨hverdict, hkeep, htable⟩ := checkRename_spec h hd now name newName
  unfold planRename scannedPlan
  rw [← hverdict]
  generalize r.checkRename now d name newName = p at hkeep htable
  obtain ⟨result, s⟩ := p
  cases result with
  | error e => exact ⟨rfl, hkeep⟩
  | ok scanned =>
    cases scanned with
    | none =>
      obtain ⟨hfound, hend⟩ := referencesOf_spec hkeep.coherent hd now name
      exact ⟨by simp only [hfound]; rfl, hend.catalog.trans hkeep.catalog, hend.coherent⟩
    | some table =>
      obtain rfl := htable table rfl
      have hstore := ScanCache.coherent_setRules hkeep.coherent now hd.counts
      obtain ⟨hfound, hend⟩ := referencesOf_spec
        (r := { s with cache := s.cache.setRules now d.uri d.version (scanDefinitions d.uri d.text) })
        hstore hd now name
      exact ⟨by simp only [hfound]; rfl, hend.catalog.trans hkeep.catalog, hend.coherent⟩

/-- Every question is answered as by a scan, and what is remembered stays
coherent. -/
theorem ask_spec {q : Question} (h : r.cache.Coherent T) (hd : Current T q.document) (now : Nanos) :
    (r.ask now q).1 = q.scanned r.catalog ∧ Keeps T r (r.ask now q).2 := by
  cases q with
  | definition d name =>
    obtain ⟨hsite, hkeep⟩ := definitionOf_spec h hd now name
    exact ⟨congrArg Finding.definition hsite, hkeep⟩
  | references d name =>
    obtain ⟨hfound, hkeep⟩ := referencesOf_spec h hd now name
    exact ⟨congrArg Finding.references hfound, hkeep⟩
  | symbols d =>
    obtain ⟨hsymbols, hkeep⟩ := symbolsOf_spec h hd now
    exact ⟨congrArg Finding.symbols hsymbols, hkeep⟩
  | hover d name =>
    obtain ⟨htext, hkeep⟩ := hoverOf_spec h hd now name
    exact ⟨congrArg Finding.hover htext, hkeep⟩
  | validateRename d name newName =>
    obtain ⟨hverdict, hkeep, _⟩ := checkRename_spec h hd now name newName
    exact ⟨congrArg Finding.verdict hverdict, hkeep⟩
  | planRename d name newName =>
    obtain ⟨hplan, hkeep⟩ := planRename_spec h hd now name newName
    exact ⟨congrArg Finding.plan hplan, hkeep⟩

/-! ## Runs -/

/-- What a host may do with a resolver. -/
inductive Call
  | ask (q : Question)
  | clearDocument (uri : String)
  | clearAll
  | report

/-- The resolver after a call. -/
def step (r : Resolver) (now : Nanos) : Call → Resolver
  | .ask q => (r.ask now q).2
  | .clearDocument uri => r.clearDocument uri
  | .clearAll => r.clearAll
  | .report => (r.report now).2

/-- The resolver after some calls, each at its time. -/
def run (r : Resolver) (calls : List (Nanos × Call)) : Resolver :=
  calls.foldl (fun r c => r.step c.1 c.2) r

/-- The document that a call gives the text of. -/
def Call.document? : Call → Option Document
  | .ask q => some q.document
  | _ => none

/-- Whether a call makes the resolver forget a document. -/
def Call.clears (uri : String) : Call → Bool
  | .clearDocument u => u = uri
  | .clearAll => true
  | _ => false

/-- A call that gives another text than an earlier call gave for the same
version of a document comes after a call that clears the document. -/
def Disciplined (calls : List (Nanos × Call)) : Prop :=
  ∀ as x bs y cs, calls = as ++ x :: (bs ++ y :: cs) →
    ∀ d e, x.2.document? = some d → y.2.document? = some e →
      d.uri = e.uri → d.version = e.version → d.text ≠ e.text →
        ∃ z ∈ bs, z.2.clears d.uri = true

/-- A text was given for a version of a document, and the document was not
cleared since. -/
def Given (calls : List (Nanos × Call)) (uri : String) (version : Int) (text : Text) : Prop :=
  ∃ as x bs d, calls = as ++ x :: bs ∧ x.2.document? = some d ∧
    d.uri = uri ∧ d.version = version ∧ d.text = text ∧ ∀ z ∈ bs, z.2.clears uri = false

variable {calls : List (Nanos × Call)}

theorem run_snoc (r : Resolver) (calls : List (Nanos × Call)) (c : Nanos × Call) :
    r.run (calls ++ [c]) = (r.run calls).step c.1 c.2 := by
  simp [run, List.foldl_append]

theorem Disciplined.of_append {more : List (Nanos × Call)} (h : Disciplined (calls ++ more)) :
    Disciplined calls := by
  intro as x bs y cs hcalls
  refine h as x bs y (cs ++ more) ?_
  simp [hcalls]

/-- What was given before stays given, unless the next call clears it. -/
theorem Given.snoc {uri : String} {version : Int} {text : Text} (h : Given calls uri version text)
    {c : Nanos × Call} (hc : c.2.clears uri = false) : Given (calls ++ [c]) uri version text := by
  obtain ⟨as, x, bs, d, rfl, hd, hu, hv, ht, hkeep⟩ := h
  refine ⟨as, x, bs ++ [c], d, by simp, hd, hu, hv, ht, ?_⟩
  intro z hz
  rcases List.mem_append.mp hz with hz | hz
  · exact hkeep z hz
  · rw [List.mem_singleton.mp hz]
    exact hc

/-- Under the discipline, the text of a question is the one that counts. -/
theorem current_of_disciplined {now : Nanos} {q : Question}
    (h : Disciplined (calls ++ [(now, .ask q)])) :
    Current (Given (calls ++ [(now, .ask q)])) q.document where
  counts := ⟨calls, _, [], q.document, rfl, rfl, rfl, rfl, rfl, fun _ hz => absurd hz List.not_mem_nil⟩
  only := by
    rintro text ⟨as, x, bs, d, hcalls, hd, hu, hv, rfl, hkeep⟩
    rcases List.eq_nil_or_concat bs with rfl | ⟨bs, y, rfl⟩
    · have hx : (now, Call.ask q) = x := by
        simpa using congrArg List.getLast? hcalls
      subst hx
      cases hd
      rfl
    · rw [List.concat_eq_append] at hcalls hkeep
      have hsplit : calls ++ [(now, Call.ask q)] = (as ++ x :: bs) ++ [y] := by simpa using hcalls
      obtain rfl : (now, Call.ask q) = y := by simpa using (List.append_inj' hsplit rfl).2
      by_contra hne
      obtain ⟨z, hz, hclear⟩ := h as x bs _ [] (by simpa using hcalls) d q.document hd rfl hu hv hne
      have := hkeep z (List.mem_append_left _ hz)
      rw [← hu, hclear] at this
      cases this

/-- In every disciplined run, what is remembered is a scan of a text that was
given since its document was last cleared. -/
theorem coherent_run (catalog : Catalog) (limits : CacheLimits) (h : Disciplined calls) :
    ((new catalog limits).run calls).catalog = catalog ∧
      ((new catalog limits).run calls).cache.Coherent (Given calls) := by
  induction calls using List.reverseRecOn with
  | nil => exact ⟨rfl, ScanCache.coherent_new limits⟩
  | append_singleton calls c ih =>
    obtain ⟨hcat, hcoh⟩ := ih h.of_append
    obtain ⟨now, c⟩ := c
    rw [run_snoc]
    cases c with
    | ask q =>
      obtain ⟨_, hkeep⟩ := ask_spec (hcoh.mono fun _ _ _ ht => ht.snoc rfl) (current_of_disciplined h) now
      exact ⟨hkeep.catalog.trans hcat, hkeep.coherent⟩
    | clearDocument uri =>
      refine ⟨hcat, (ScanCache.coherent_clearDocument hcoh uri).mono ?_⟩
      intro u version text ⟨hu, ht⟩
      exact ht.snoc (by simpa [Call.clears] using Ne.symm hu)
    | clearAll => exact ⟨hcat, ScanCache.coherent_clearAll _⟩
    | report => exact ⟨hcat, (ScanCache.coherent_report hcoh now).mono fun _ _ _ ht => ht.snoc rfl⟩

/-- A resolver that remembers nothing answers by a scan. -/
theorem ask_new (catalog : Catalog) (limits : CacheLimits) (now : Nanos) (q : Question) :
    ((new catalog limits).ask now q).1 = q.scanned catalog := by
  have hcurrent : Current (fun _ _ text => text = q.document.text) q.document := ⟨rfl, fun _ ht => ht⟩
  exact (ask_spec (ScanCache.coherent_new limits) hcurrent now).1

/-! ## The law -/

/-- In every disciplined run, each question gets the answer that a resolver of
the same catalog gives that remembers nothing, whatever the limits of the two
are and whenever each one is asked. -/
theorem answers_are_those_of_a_fresh_resolver (catalog : Catalog) (limits freshLimits : CacheLimits)
    (before after : List (Nanos × Call)) (now freshNow : Nanos) (q : Question)
    (h : Disciplined (before ++ (now, .ask q) :: after)) :
    (((new catalog limits).run before).ask now q).1 =
      ((new catalog freshLimits).ask freshNow q).1 := by
  have hsplit : Disciplined ((before ++ [(now, .ask q)]) ++ after) := by simpa using h
  have hprefix := hsplit.of_append
  obtain ⟨hcat, hcoh⟩ := coherent_run catalog limits hprefix.of_append
  have hnow := (ask_spec (hcoh.mono fun _ _ _ ht => ht.snoc rfl) (current_of_disciplined hprefix) now).1
  rw [hnow, hcat, ask_new]

/-- The text changes while the version stays. The document is cleared in
between, so the rule is found where it stands now. -/
theorem a_cleared_document_is_scanned_again :
    Disciplined ([(0, .ask (.definition (.new "f" "a=b".toList 1) ['a'])), (5, .clearDocument "f")] ++
        (9, .ask (.definition (.new "f" " a=b".toList 1) ['a'])) :: []) ∧
      ((((new Catalog.english {}).run
        [(0, .ask (.definition (.new "f" "a=b".toList 1) ['a'])), (5, .clearDocument "f")]).ask 9
          (.definition (.new "f" " a=b".toList 1) ['a'])).1 =
        ((new Catalog.english {}).ask 0 (.definition (.new "f" " a=b".toList 1) ['a'])).1) := by
  have h : Disciplined ([(0, .ask (.definition (.new "f" "a=b".toList 1) ['a'])), (5, .clearDocument "f")] ++
      (9, .ask (.definition (.new "f" " a=b".toList 1) ['a'])) :: []) := by
    intro as x bs y cs hcalls d e hd he hu hv ht
    rcases as with _ | ⟨a, _ | ⟨b, as⟩⟩
    · rcases bs with _ | ⟨z, bs⟩ <;> simp only [List.nil_append, List.cons_append,
        List.cons.injEq] at hcalls
      · obtain ⟨rfl, rfl, -⟩ := hcalls
        cases he
      · obtain ⟨rfl, rfl, -⟩ := hcalls
        cases hd
        exact ⟨_, List.mem_cons_self, rfl⟩
    · simp only [List.nil_append, List.cons_append, List.cons.injEq] at hcalls
      obtain ⟨-, rfl, -⟩ := hcalls
      cases hd
    · have := congrArg List.length hcalls
      simp only [List.length_append, List.length_cons, List.length_nil] at this
      omega
  exact ⟨h, answers_are_those_of_a_fresh_resolver _ _ _ _ _ _ _ _ h⟩

end AbnfServer.Resolver
