-- What is remembered of the documents that were scanned: the rules that each
-- one defines, and the references to the names that were asked for. An entry
-- belongs to one version of its document, and a look at it with another
-- version drops it.
import AbnfServer.Cache.Aging
import AbnfServer.Rule.Definition
import AbnfServer.Rule.Reference

namespace AbnfServer

/-- How much a cache holds, and for how long. -/
structure CacheLimits where
  capacity : Nat := 100
  lifetime : Nanos := .ofSecs (30 * 60)
deriving DecidableEq, Repr

/-- The symbol table of one version of a document. -/
structure ScannedRules where
  version : Int
  rules : Rule.SymbolTable

/-- The references in one version of a document, by the name they refer to. -/
structure ScannedReferences where
  version : Int
  byName : Dict Text (List Rule.Reference)

/-- Adds references to an entry of the same version. An entry of another
version stays as it is. -/
def ScannedReferences.add (e : ScannedReferences) (version : Int) (name : Text)
    (found : List Rule.Reference) : ScannedReferences :=
  if e.version = version then { e with byName := e.byName.insert name found } else e

/-- The remembered scans, by the URI of the document. -/
structure ScanCache where
  rules : AgingCache String ScannedRules
  references : AgingCache String ScannedReferences

namespace ScanCache

/-- Remembers nothing yet. -/
def new (limits : CacheLimits) : ScanCache :=
  ⟨.new limits.capacity limits.lifetime, .new limits.capacity limits.lifetime⟩

/-! ## Rules -/

/-- The rules that a version of a document defines, if they are remembered. -/
def rules? (c : ScanCache) (now : Nanos) (uri : String) (version : Int) :
    Option Rule.SymbolTable × ScanCache :=
  match c.rules.read now uri with
  | (none, rules) => (none, { c with rules })
  | (some e, rules) =>
    if e.version = version then (some e.rules, { c with rules })
    else (none, { c with rules := rules.remove uri })

/-- Whether the rules of a version are remembered. This is a look like any
other. -/
def hasRules (c : ScanCache) (now : Nanos) (uri : String) (version : Int) : Bool × ScanCache :=
  let (table, c) := c.rules? now uri version
  (table.isSome, c)

def setRules (c : ScanCache) (now : Nanos) (uri : String) (version : Int)
    (table : Rule.SymbolTable) : ScanCache :=
  { c with rules := (c.rules.insert now uri ⟨version, table⟩).2 }

/-! ## References -/

/-- The references to a name in a version of a document, if they are
remembered. -/
def references? (c : ScanCache) (now : Nanos) (uri : String) (version : Int) (name : Text) :
    Option (List Rule.Reference) × ScanCache :=
  match c.references.read now uri with
  | (none, references) => (none, { c with references })
  | (some e, references) =>
    if e.version = version then (e.byName.get? name, { c with references })
    else (none, { c with references := references.remove uri })

/-- Remembers the references to a name. They join an entry of the same version,
whose age goes on; otherwise they start a new entry. -/
def setReferences (c : ScanCache) (now : Nanos) (uri : String) (version : Int) (name : Text)
    (found : List Rule.Reference) : ScanCache :=
  let fresh (references : AgingCache String ScannedReferences) : ScanCache :=
    { c with references :=
        (references.insert now uri ⟨version, (∅ : Dict Text _).insert name found⟩).2 }
  match c.references.modify now uri (·.add version name found) with
  | (none, references) => fresh references
  | (some e, references) => if e.version = version then { c with references } else fresh references

/-! ## Forgetting -/

def clearDocument (c : ScanCache) (uri : String) : ScanCache :=
  ⟨c.rules.remove uri, c.references.remove uri⟩

def clearAll (c : ScanCache) : ScanCache := ⟨c.rules.clear, c.references.clear⟩

end ScanCache

end AbnfServer
