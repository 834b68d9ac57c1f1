-- A session with one client: the phases it goes through, what is kept from
-- one message to the next, and what each message brings about.
import AbnfServer.Document.Open
import AbnfServer.Resolver
import AbnfServer.Rule.Layout
import AbnfServer.Session.Message
import AbnfServer.Settings.Payload
import AbnfServer.Text.Uri

namespace AbnfServer

/-- How far a session has come. -/
inductive Phase
  | uninitialized | running | shutDown | exited
deriving DecidableEq, Repr

/-- What is kept between two messages. -/
structure Session where
  phase : Phase := .uninitialized
  settings : Settings
  resolver : Resolver
  documents : OpenDocuments := {}

namespace Session

/-- A session whose client has said nothing yet. -/
def new (locale : Option Locale) : Session :=
  let settings : Settings := { locale := locale.getD default }
  { settings, resolver := .new settings.locale.catalog settings.cache.limits }

/-! ## Settings -/

/-- Takes new settings. The resolver starts afresh when its language or the
size of its cache changes, and only then. -/
def applySettings (s : Session) (settings : Settings) : Session :=
  if s.settings.locale = settings.locale ∧ s.settings.cache = settings.cache then
    { s with settings }
  else { s with settings, resolver := .new settings.locale.catalog settings.cache.limits }

/-- Every text for the client's user starts with the name of the server. -/
def withServerName (text : Text) : Text := "abnf-analyzer: ".toList ++ text

/-- A line for the client's log, if the settings let it through. -/
def log (s : Session) (level : LogLevel) (text : Text) : List Notice :=
  if s.settings.logLevel.allows level then [.logged level.messageType (withServerName text)] else []

/-! ## Queries -/

/-- An open document, and the word at a position in it with its range. -/
def wordAt? (s : Session) (uri : String) (place : Position) : Option (Document × Text × Range) := do
  let d ← s.documents.get? uri
  let (word, range) ← d.wordAt? place
  return (d, word, range)

def hover (s : Session) (now : Nanos) (uri : String) (place : Position) : Reply × Resolver :=
  match s.wordAt? uri place with
  | none => (.ok .nothing, s.resolver)
  | some (d, word, range) =>
    match s.resolver.hoverOf now d word with
    | (none, r) => (.ok .nothing, r)
    | (some h, r) => (.ok (.hover (h.markdown s.resolver.catalog) range), r)

def definition (s : Session) (now : Nanos) (uri : String) (place : Position) : Reply × Resolver :=
  match s.wordAt? uri place with
  | none => (.ok .nothing, s.resolver)
  | some (d, word, _) =>
    match s.resolver.definitionOf now d word with
    | (none, r) => (.ok .nothing, r)
    | (some l, r) => (.ok (.location l), r)

/-- The occurrences of a name; without its declaration, the place of the
definition is left out. -/
def references (s : Session) (now : Nanos) (uri : String) (place : Position) (declaration : Bool) :
    Reply × Resolver :=
  match s.wordAt? uri place with
  | none => (.ok .nothing, s.resolver)
  | some (d, word, _) =>
    let (found, r) := s.resolver.referencesOf now d word
    let locations := found.map Rule.Reference.location
    if declaration then (.ok (.locations locations), r)
    else
      let (site, r) := r.definitionOf now d word
      (.ok (.locations (locations.filter fun l => site != some l)), r)

def outline (s : Session) (now : Nanos) (uri : String) : Reply × Resolver :=
  match s.documents.get? uri with
  | none => (.ok .nothing, s.resolver)
  | some d =>
    let (symbols, r) := s.resolver.symbolsOf now d
    (.ok (.outline s.resolver.catalog.abnfRule symbols), r)

/-- The range that a rename would start from: only a rule that the document
defines can be renamed. -/
def prepareRename (s : Session) (now : Nanos) (uri : String) (place : Position) :
    Reply × Resolver :=
  match s.wordAt? uri place with
  | none => (.ok .nothing, s.resolver)
  | some (d, word, range) =>
    match s.resolver.definitionOf now d word with
    | (none, r) => (.error (.ofRenameError s.resolver.catalog (.undefinedRule word)), r)
    | (some _, r) => (.ok (.range range), r)

/-- The edits of a rename. A refusal is shown to the user as well. -/
def rename (s : Session) (now : Nanos) (uri : String) (place : Position) (newName : Text) :
    Reply × List Notice × Resolver :=
  match s.wordAt? uri place with
  | none => (.ok .nothing, [], s.resolver)
  | some (d, word, _) =>
    match s.resolver.planRename now d word newName with
    | (.ok edits, r) => (.ok (.workspaceEdit uri edits), [], r)
    | (.error e, r) =>
      let refusal := Refusal.ofRenameError s.resolver.catalog e
      let shown := s.settings.locale.catalog.failedRename refusal.message
      (.error refusal, [.shown .error (withServerName shown)], r)

/-- The edit that puts a document into canonical layout, if there is anything
to do and formatting is on. -/
def formatEdits (settings : Settings) (d : Document) : List Edit :=
  if settings.formatting then ((Rule.layout? d.text).map fun t => ⟨d.fullRange, t⟩).toList else []

def format (s : Session) (uri : String) : Reply :=
  match s.documents.get? uri with
  | none => .ok .nothing
  | some d => .ok (.edits (formatEdits s.settings d))

/-- Answers a query. Of the session, only what the resolver remembers
changes. -/
def ask (s : Session) (now : Nanos) : Query → Reply × List Notice × Resolver
  | .hover uri place => let (a, r) := s.hover now uri place; (a, [], r)
  | .definition uri place => let (a, r) := s.definition now uri place; (a, [], r)
  | .references uri place declaration =>
    let (a, r) := s.references now uri place declaration; (a, [], r)
  | .outline uri => let (a, r) := s.outline now uri; (a, [], r)
  | .prepareRename uri place => let (a, r) := s.prepareRename now uri place; (a, [], r)
  | .rename uri place newName => s.rename now uri place newName
  | .format uri => (s.format uri, [], s.resolver)

/-! ## Commands -/

/-- The command that reports on the cache. -/
def reportCommand : String := "abnf.cacheStats"

/-- The command that empties the cache. -/
def clearCommand : String := "abnf.clearCache"

def execute (s : Session) (now : Nanos) (name : String) : Reply × List Notice × Resolver :=
  if name = reportCommand then
    let (report, r) := s.resolver.report now
    (.ok (.report report), [], r)
  else if name = clearCommand then
    (.ok .nothing, s.log .info "Cache cleared".toList, s.resolver.clearAll)
  else
    (.error (.unknownCommand name), [], s.resolver)

/-! ## Requests -/

/-- The refusal of a method that no server knows. An optional method, marked by
a dollar sign, is passed over in silence. -/
def refuseUnknown (method : String) : Option Reply :=
  match method.toList with
  | '$' :: '/' :: _ => none
  | _ => some (.error (.methodNotFound (some method)))

/-- Answers a request while the session runs. -/
def serve (s : Session) (now : Nanos) : Request → Option Reply × List Notice × Session
  | .start _ => (some (.error .invalidRequest), [], s)
  | .shutdown fault =>
    let reply : Reply := match fault with
      | none => .ok .nothing
      | some fault => .error (.malformed fault)
    (some reply, [], { s with phase := .shutDown })
  | .query q =>
    let (reply, notices, resolver) := s.ask now q
    (some reply, notices, { s with resolver })
  | .command name =>
    let (reply, notices, resolver) := s.execute now name
    (some reply, notices, { s with resolver })
  | .unsupported => (some (.error (.methodNotFound none)), [], s)
  | .malformed fault => (some (.error (.malformed fault)), [], s)
  | .misplaced => (some (.error .invalidRequest), [], s)
  | .unknown method => (refuseUnknown method, [], s)

/-- Starts a session with the settings that come with it. -/
def start (s : Session) (options : Option Json) : Session :=
  { s.applySettings (s.settings.mergeOptional options) with phase := .running }

/-- Answers a request. Before the start and after the shutdown all but the
unknown ones are refused alike. -/
def respond (s : Session) (now : Nanos) (r : Request) : Option Reply × List Notice × Session :=
  match r, s.phase with
  | .unknown method, _ => (refuseUnknown method, [], s)
  | .start (.ok options), .uninitialized => (some (.ok .capabilities), [], s.start options)
  | .start (.error fault), .uninitialized => (some (.error (.malformed fault)), [], s)
  | _, .uninitialized => (some (.error .notInitialized), [], s)
  | r, .running => s.serve now r
  | _, _ => (some (.error .invalidRequest), [], s)

/-! ## Notifications -/

/-- Changes a document. For one that was never opened only a last change to
the whole text counts. -/
def changeDocument (ds : OpenDocuments) (uri : String) (changes : List Change) (version : Int) :
    OpenDocuments :=
  match ds.applyChanges? uri changes version with
  | some ds => ds
  | none =>
    match changes.getLast? with
    | some ⟨none, text⟩ => ds.update uri text version
    | _ => ds

/-- Takes new settings from the client. Settings that stay the same change
nothing at all. -/
def configure (s : Session) (payload : Json) : Session :=
  let merged := s.settings.merge payload
  if merged = s.settings then s else s.applySettings merged

/-- What the server says once it is ready. -/
def readyText (locale : Locale) : Text := "Ready (locale ".toList ++ locale.tag.toList ++ [')']

/-- Hears a notification while the session runs. What is remembered of a
document goes whenever its text may change. -/
def hear (s : Session) : Notification → List Notice × Session
  | .initialized => (s.log .info (readyText s.settings.locale), s)
  | .opened uri text version =>
    let t := { s with
      documents := s.documents.opened uri text version
      resolver := s.resolver.clearDocument uri }
    (t.log .debug ("Opened ".toList ++ Uri.shortName uri), t)
  | .changed uri changes version =>
    ([], { s with
      documents := changeDocument s.documents uri changes version
      resolver := s.resolver.clearDocument uri })
  | .closed uri =>
    ([], { s with
      documents := s.documents.close uri
      resolver := s.resolver.clearDocument uri })
  | .configured payload => ([], s.configure payload)
  | .shutdown => ([], { s with phase := .shutDown })
  | .exit => ([], { s with phase := .exited })
  | .other => ([], s)

/-- Hears a notification. The one to exit counts in every phase, any other one
only while the session runs. -/
def notified (s : Session) (n : Notification) : List Notice × Session :=
  match n, s.phase with
  | .exit, _ => ([], { s with phase := .exited })
  | n, .running => s.hear n
  | _, _ => ([], s)

/-! ## Messages -/

/-- What a message brings about: the reply to a request, and what the server
says unasked. -/
structure Effects where
  reply : Option Reply
  notices : List Notice

/-- Takes one message. Behind the end of the session there is no effect. -/
def receive (s : Session) (now : Nanos) (m : Message) : Option Effects × Session :=
  match s.phase, m with
  | .exited, _ => (none, s)
  | _, .request r =>
    let (reply, notices, s) := s.respond now r
    (some ⟨reply, notices⟩, s)
  | _, .notification n =>
    let (notices, s) := s.notified n
    (some ⟨none, notices⟩, s)

end Session

end AbnfServer
