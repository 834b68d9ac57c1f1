-- What a client and the server say to each other in a session.
import AbnfServer.Cache.Report
import AbnfServer.Document.Basic
import AbnfServer.Json.Basic
import AbnfServer.Rule.Definition
import AbnfServer.Rule.Rename
import AbnfServer.Settings.Basic

namespace AbnfServer

/-! ## From the client -/

/-- A question about an open document. -/
inductive Query
  | hover (uri : String) (place : Position)
  | definition (uri : String) (place : Position)
  | references (uri : String) (place : Position) (declaration : Bool)
  | outline (uri : String)
  | prepareRename (uri : String) (place : Position)
  | rename (uri : String) (place : Position) (newName : Text)
  | format (uri : String)
deriving DecidableEq, Repr

/-- What is wrong with the parameters of a request. -/
inductive ParameterFault
  | missing
  /-- There should be none, but these were given. -/
  | unexpected (given : String)
  | unreadable
deriving DecidableEq, Repr

/-- What a client asks, and wants an answer to. -/
inductive Request
  | start (options : Except ParameterFault (Option Json))
  /-- A request to shut down, which counts whatever its parameters are. -/
  | shutdown (fault : Option ParameterFault)
  | query (q : Query)
  | command (name : String)
  /-- A request of the protocol that this server does not offer. -/
  | unsupported
  /-- A request whose parameters are wrong. -/
  | malformed (fault : ParameterFault)
  /-- A method that only makes sense without an answer. -/
  | misplaced
  /-- No request of the protocol. -/
  | unknown (method : String)

/-- What a client tells the server. -/
inductive Notification
  | initialized
  | opened (uri : String) (text : Text) (version : Int)
  | changed (uri : String) (changes : List Change) (version : Int)
  | closed (uri : String)
  | configured (payload : Json)
  /-- A request to shut down that wants no answer. -/
  | shutdown
  | exit
  /-- Anything else means nothing to this server. -/
  | other

/-- A message of the client. -/
inductive Message
  | request (r : Request)
  | notification (n : Notification)

/-! ## From the server -/

/-- The answer to a request. -/
inductive Answer
  | capabilities
  | nothing
  | hover (markdown : String) (range : Range)
  | location (l : Location)
  | locations (ls : List Location)
  /-- The symbols of a document, each under the same short description. -/
  | outline (detail : String) (symbols : List Rule.Symbol)
  | range (r : Range)
  | edits (es : List Edit)
  /-- Edits to one document, for the client to apply. -/
  | workspaceEdit (uri : String) (es : List Edit)
  | report (r : CacheReport)
deriving DecidableEq, Repr

/-- Why a request gets no answer. -/
inductive Refusal
  /-- What came in is no JSON. -/
  | unparsable
  | notInitialized
  | invalidRequest
  /-- No such method; an unknown one is named. -/
  | methodNotFound (method : Option String)
  /-- The parameters are wrong. -/
  | malformed (fault : ParameterFault)
  | unknownCommand (name : String)
  /-- The rename may not be, in the words of the user's language. -/
  | renameRefused (why : Rule.RenameError) (message : Text)
deriving DecidableEq, Repr

def ParameterFault.message : ParameterFault → Text
  | missing => "Missing params field".toList
  | unexpected given => "Unexpected params: ".toList ++ given.toList
  | unreadable => "Invalid params".toList

namespace Refusal

/-- The code of a refusal. -/
def code : Refusal → Int
  | unparsable => -32700
  | notInitialized => -32002
  | invalidRequest => -32600
  | methodNotFound _ => -32601
  | malformed _ => -32602
  | unknownCommand _ => -32602
  | renameRefused _ _ => -32602

def message : Refusal → Text
  | unparsable => "Parse error".toList
  | notInitialized => "Server not initialized".toList
  | invalidRequest => "Invalid request".toList
  | methodNotFound _ => "Method not found".toList
  | malformed fault => fault.message
  | unknownCommand name => "Unknown command: ".toList ++ name.toList
  | renameRefused _ message => message

/-- The refusal of a rename, in the language of a catalog. -/
def ofRenameError (c : Catalog) (e : Rule.RenameError) : Refusal := renameRefused e (e.message c)

end Refusal

/-- A request is answered or refused. -/
abbrev Reply := Except Refusal Answer

/-- What the server tells the client's user: for the log, or to be shown. -/
inductive Notice
  | logged (type : MessageType) (text : Text)
  | shown (type : MessageType) (text : Text)
deriving DecidableEq, Repr

end AbnfServer
