-- Answers questions about the rules of a document, from the remembered scans
-- when they are of its version, else by a new scan. Whoever asks tells the
-- resolver of each change of a text before the next question.
import AbnfServer.Cache.Report
import AbnfServer.Document.Basic
import AbnfServer.Hover
import AbnfServer.Rule.Rename

namespace AbnfServer

/-- The remembered scans, and the messages to answer with. -/
structure Resolver where
  catalog : Catalog
  cache : ScanCache

namespace Resolver

open Rule

/-- A resolver that remembers nothing yet. -/
def new (catalog : Catalog) (limits : CacheLimits) : Resolver := ⟨catalog, .new limits⟩

/-! ## Rules and references -/

/-- The rules that a document defines. -/
def rulesOf (r : Resolver) (now : Nanos) (d : Document) : SymbolTable × Resolver :=
  match r.cache.rules? now d.uri d.version with
  | (some table, cache) => (table, { r with cache })
  | (none, cache) =>
    let table := scanDefinitions d.uri d.text
    (table, { r with cache := cache.setRules now d.uri d.version table })

/-- Where a rule is defined. -/
def definitionOf (r : Resolver) (now : Nanos) (d : Document) (name : Text) :
    Option Location × Resolver :=
  let (table, r) := r.rulesOf now d
  (table.get? name, r)

/-- Where a name occurs. -/
def referencesOf (r : Resolver) (now : Nanos) (d : Document) (name : Text) :
    List Reference × Resolver :=
  match r.cache.references? now d.uri d.version name with
  | (some found, cache) => (found, { r with cache })
  | (none, cache) =>
    let found := scanReferences d.uri d.text name
    (found, { r with cache := cache.setReferences now d.uri d.version name found })

/-- Outlines go by position; the name decides between symbols at one place. -/
def symbolLE (a b : Symbol) : Bool :=
  a.location.range.start < b.location.range.start ||
    (a.location.range.start == b.location.range.start && a.name.le b.name)

/-- The rules of a document in the order in which they are defined. -/
def symbolsOf (r : Resolver) (now : Nanos) (d : Document) : List Symbol × Resolver :=
  let (table, r) := r.rulesOf now d
  ((table.entries.map fun e => ⟨e.1, e.2⟩).mergeSort symbolLE, r)

/-- What there is to say about a name. For a core rule the document does not
matter, and nothing is looked up. -/
def hoverOf (r : Resolver) (now : Nanos) (d : Document) (name : Text) :
    Option HoverText × Resolver :=
  match HoverText.ofCoreName? r.catalog name with
  | some h => (some h, r)
  | none =>
    let (table, r) := r.rulesOf now d
    (if table.contains name then some (.ofUserRule r.catalog name) else none, r)

/-! ## Renames -/

/-- Checks a rename: the new name first, then whether the rule is defined. The
result is the table when it had to be scanned; it is not remembered here. -/
def checkRename (r : Resolver) (now : Nanos) (d : Document) (name newName : Text) :
    Except RenameError (Option SymbolTable) × Resolver :=
  if !isName newName then (.error (.invalidName newName), r)
  else
    let (known, cache) := r.cache.rules? now d.uri d.version
    let r := { r with cache }
    let table := known.getD (scanDefinitions d.uri d.text)
    if !table.contains name then (.error (.undefinedRule name), r)
    else (.ok (if known.isSome then none else some table), r)

/-- Whether a rename would be refused, and why. -/
def validateRename (r : Resolver) (now : Nanos) (d : Document) (name newName : Text) :
    Except RenameError Unit × Resolver :=
  let (result, r) := r.checkRename now d name newName
  (result.map fun _ => (), r)

/-- The edits of a rename. A new table is remembered once nothing speaks
against the rename. -/
def planRename (r : Resolver) (now : Nanos) (d : Document) (name newName : Text) :
    Except RenameError (List Edit) × Resolver :=
  match r.checkRename now d name newName with
  | (.error e, r) => (.error e, r)
  | (.ok scanned, r) =>
    let r := match scanned with
      | none => r
      | some table => { r with cache := r.cache.setRules now d.uri d.version table }
    let (found, r) := r.referencesOf now d name
    (.ok (planEdits d.text found newName), r)

/-! ## Forgetting and reporting -/

def clearDocument (r : Resolver) (uri : String) : Resolver :=
  { r with cache := r.cache.clearDocument uri }

def clearAll (r : Resolver) : Resolver := { r with cache := r.cache.clearAll }

def report (r : Resolver) (now : Nanos) : CacheReport × Resolver :=
  let (report, cache) := r.cache.report now
  (report, { r with cache })

end Resolver

end AbnfServer
