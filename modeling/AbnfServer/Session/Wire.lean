-- The messages of a session as JSON: methods and parameters on the way in,
-- results, errors and notifications on the way out.
import AbnfServer.Json.Printer
import AbnfServer.Session.Basic

namespace AbnfServer.Wire

/-! ## Parameters -/

def readWord? (j : Json) (key : String) : Option UInt32 := do
  let n ← (← j.get? key).asNat?
  if n < UInt32.size then some (UInt32.ofNat n) else none

def readPosition? (j : Json) : Option Position := do
  return ⟨← readWord? j "line", ← readWord? j "character"⟩

def readRange? (j : Json) : Option Range := do
  return ⟨← readPosition? (← j.get? "start"), ← readPosition? (← j.get? "end")⟩

def readString? (j : Json) (key : String) : Option String := do (← j.get? key).asString?

/-- The URI of the document that a message is about. -/
def readUri? (j : Json) : Option String := do readString? (← j.get? "textDocument") "uri"

def readVersion? (j : Json) : Option Int := do
  (← (← j.get? "textDocument").get? "version").asInt?

def readPlace? (j : Json) : Option (String × Position) := do
  return (← readUri? j, ← readPosition? (← j.get? "position"))

/-- A member that is there and not null. -/
def present? (j : Json) (key : String) : Option Json :=
  match j.get? key with
  | some .null => none
  | v => v

/-- A change; one with a null for its range replaces the whole text. -/
def readChange? (j : Json) : Option Change := do
  let text := (← readString? j "text").toList
  match present? j "range" with
  | none => return ⟨none, text⟩
  | some r => return ⟨some (← readRange? r), text⟩

def readChanges? (j : Json) : Option (List Change) := do
  (← (← j.get? "contentChanges").asArray?).mapM readChange?

/-! ## Requests -/

/-- The requests of the protocol that this server does not offer. -/
def unsupportedMethods : List String :=
  ["textDocument/willSaveWaitUntil", "textDocument/declaration", "textDocument/typeDefinition",
   "textDocument/implementation", "textDocument/prepareCallHierarchy",
   "callHierarchy/incomingCalls", "callHierarchy/outgoingCalls",
   "textDocument/prepareTypeHierarchy", "typeHierarchy/supertypes", "typeHierarchy/subtypes",
   "textDocument/documentHighlight", "textDocument/documentLink", "documentLink/resolve",
   "textDocument/codeLens", "codeLens/resolve", "textDocument/foldingRange",
   "textDocument/selectionRange", "textDocument/semanticTokens/full",
   "textDocument/semanticTokens/full/delta", "textDocument/semanticTokens/range",
   "textDocument/inlineValue", "textDocument/inlayHint", "inlayHint/resolve",
   "textDocument/moniker", "textDocument/completion", "completionItem/resolve",
   "textDocument/diagnostic", "workspace/diagnostic", "textDocument/signatureHelp",
   "textDocument/codeAction", "codeAction/resolve", "textDocument/documentColor",
   "textDocument/colorPresentation", "textDocument/rangeFormatting",
   "textDocument/onTypeFormatting", "textDocument/linkedEditingRange", "workspace/symbol",
   "workspaceSymbol/resolve", "workspace/willCreateFiles", "workspace/willRenameFiles",
   "workspace/willDeleteFiles"]

/-- The notifications of the protocol. -/
def notificationMethods : List String :=
  ["initialized", "textDocument/didOpen", "textDocument/didChange", "textDocument/willSave",
   "textDocument/didSave", "textDocument/didClose", "workspace/didChangeConfiguration",
   "workspace/didChangeWorkspaceFolders", "workspace/didCreateFiles", "workspace/didRenameFiles",
   "workspace/didDeleteFiles", "workspace/didChangeWatchedFiles"]

/-- What reads the parameters of a query, if the method is one. -/
def queryReader? (method : String) : Option (Json → Option Query) :=
  match method with
  | "textDocument/hover" => some fun params => do
    let (uri, place) ← readPlace? params
    return .hover uri place
  | "textDocument/definition" => some fun params => do
    let (uri, place) ← readPlace? params
    return .definition uri place
  | "textDocument/references" => some fun params => do
    let (uri, place) ← readPlace? params
    let context ← params.get? "context"
    return .references uri place (← (← context.get? "includeDeclaration").asBool?)
  | "textDocument/documentSymbol" => some fun params => Query.outline <$> readUri? params
  | "textDocument/prepareRename" => some fun params => do
    let (uri, place) ← readPlace? params
    return .prepareRename uri place
  | "textDocument/rename" => some fun params => do
    let (uri, place) ← readPlace? params
    return .rename uri place (← readString? params "newName").toList
  | "textDocument/formatting" => some fun params => Query.format <$> readUri? params
  | _ => none

/-- The settings that come with the start of a session, if there are any. -/
def readOptions? (params : Json) : Option (Option Json) :=
  if params.isObject then some (present? params "initializationOptions") else none

/-- Reads parameters that have to be there. -/
def required {α : Type} (read : Json → Option α) : Option Json → Except ParameterFault α
  | none => .error .missing
  | some params =>
    match read params with
    | none => .error .unreadable
    | some a => .ok a

/-- The request that comes of its parameters, unless they are wrong. -/
def requestOf {α : Type} (make : α → Request) : Except ParameterFault α → Request
  | .ok a => make a
  | .error fault => .malformed fault

/-- Reads a request. -/
def readRequest (method : String) (params : Option Json) : Request :=
  match queryReader? method with
  | some read => requestOf .query (required read params)
  | none =>
    match method with
    | "initialize" => .start (required readOptions? params)
    | "shutdown" => .shutdown (params.map fun given => .unexpected given.render)
    | "workspace/executeCommand" => requestOf .command (required (readString? · "command") params)
    | method =>
      if unsupportedMethods.contains method then
        requestOf (fun _ => .unsupported) (required some params)
      else if notificationMethods.contains method then .misplaced
      else .unknown method

/-! ## Notifications -/

def readOpened? (params : Json) : Option Notification := do
  let text ← readString? (← params.get? "textDocument") "text"
  return .opened (← readUri? params) text.toList (← readVersion? params)

/-- Reads a notification. One whose parameters cannot be read means nothing. -/
def readNotification (method : String) (params : Option Json) : Notification :=
  let known : Option Notification :=
    match method with
    | "initialized" => do
      if (← params).isObject then return .initialized else none
    | "textDocument/didOpen" => do readOpened? (← params)
    | "textDocument/didChange" => do
      let params ← params
      return .changed (← readUri? params) (← readChanges? params) (← readVersion? params)
    | "textDocument/didClose" => do return .closed (← readUri? (← params))
    | "workspace/didChangeConfiguration" => do return .configured (← (← params).get? "settings")
    | "shutdown" => some .shutdown
    | _ => none
  known.getD .other

/-- Reads a message. With an id it is a request, but to exit is never one. -/
def readMessage (method : String) (hasId : Bool) (params : Option Json) : Message :=
  if method = "exit" then .notification .exit
  else if hasId then .request (readRequest method params)
  else .notification (readNotification method params)

/-! ## Results -/

def ofText (t : Text) : Json := .str (.ofList t)

def ofPosition (p : Position) : Json :=
  .obj [("line", .ofNat p.line.toNat), ("character", .ofNat p.character.toNat)]

def ofRange (r : Range) : Json := .obj [("start", ofPosition r.start), ("end", ofPosition r.stop)]

def ofLocation (l : Location) : Json := .obj [("uri", .str l.uri), ("range", ofRange l.range)]

def ofEdit (e : Edit) : Json := .obj [("range", ofRange e.range), ("newText", ofText e.newText)]

def ofTarget : Target → Json
  | .single l => ofLocation l
  | .multiple ls => .arr (ls.map ofLocation)

/-- Markdown to be shown at a range, if there is one. -/
def ofHover (markdown : String) (range : Option Range) : Json :=
  .ofOptional [
    ("contents", some (.obj [("kind", .str "markdown"), ("value", .str markdown)])),
    ("range", range.map ofRange)]

/-- The kind of symbol that stands for a rule: a function. -/
def ruleSymbolKind : Nat := 12

def ofSymbol (detail : String) (s : Rule.Symbol) : Json :=
  .obj [("name", ofText s.name), ("detail", .str detail), ("kind", .ofNat ruleSymbolKind),
    ("range", ofRange s.location.range), ("selectionRange", ofRange s.location.range)]

def ofUse (u : CacheUse) : Json :=
  .obj [("size", .ofNat u.size), ("max", .ofNat u.capacity), ("ttl", .ofNat u.lifetimeMillis)]

def ofReport (r : CacheReport) : Json :=
  .obj [("rulesCache", ofUse r.rules), ("referencesCache", ofUse r.references),
    ("entries", .arr (r.entries.map fun e => .obj [("uri", .str e.1), ("version", .ofInt e.2)]))]

def serverName : String := "abnf-analyzer"

def serverVersion : String := "0.1.0"

/-- Documents are sent whole when they change. -/
def fullSync : Nat := 1

/-- What the server says of itself at the start. -/
def capabilities : Json :=
  .obj [
    ("capabilities", .obj [
      ("textDocumentSync", .ofNat fullSync),
      ("hoverProvider", .bool true),
      ("definitionProvider", .bool true),
      ("referencesProvider", .bool true),
      ("documentSymbolProvider", .bool true),
      ("documentFormattingProvider", .bool true),
      ("renameProvider", .obj [("prepareProvider", .bool true)]),
      ("executeCommandProvider", .obj [
        ("commands", .arr [.str Session.reportCommand, .str Session.clearCommand])])]),
    ("serverInfo", .obj [("name", .str serverName), ("version", .str serverVersion)])]

def ofAnswer : Answer → Json
  | .capabilities => capabilities
  | .nothing => .null
  | .hover markdown range => ofHover markdown (some range)
  | .location l => ofLocation l
  | .locations ls => .arr (ls.map ofLocation)
  | .outline detail symbols => .arr (symbols.map (ofSymbol detail))
  | .range r => ofRange r
  | .edits es => .arr (es.map ofEdit)
  | .workspaceEdit uri es => .obj [("changes", .obj [(uri, .arr (es.map ofEdit))])]
  | .report r => ofReport r

def ofRefusal (r : Refusal) : Json :=
  let data := match r with
    | .methodNotFound (some method) => some (.str method)
    | _ => none
  .ofOptional [("code", some (.ofInt r.code)), ("message", some (ofText r.message)), ("data", data)]

/-- A reply as the one member that tells a result from an error. -/
def ofReply : Reply → String × Json
  | .ok a => ("result", ofAnswer a)
  | .error r => ("error", ofRefusal r)

/-- A notice as a method and its parameters. -/
def ofNotice (n : Notice) : String × Json :=
  let params (type : MessageType) (text : Text) : Json :=
    .obj [("type", .ofNat type.number), ("message", ofText text)]
  match n with
  | .logged type text => ("window/logMessage", params type text)
  | .shown type text => ("window/showMessage", params type text)

end AbnfServer.Wire
