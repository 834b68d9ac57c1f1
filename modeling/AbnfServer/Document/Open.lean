-- The documents that are open, by their URI.
import AbnfServer.Dict
import AbnfServer.Document.Basic

namespace AbnfServer

/-- The open documents. -/
structure OpenDocuments where
  byUri : Dict String Document := ∅

namespace OpenDocuments

def size (ds : OpenDocuments) : Nat := ds.byUri.size

def get? (ds : OpenDocuments) (uri : String) : Option Document := ds.byUri.get? uri

/-- Opens a document anew, whether or not it was open. -/
def opened (ds : OpenDocuments) (uri : String) (text : Text) (version : Int) : OpenDocuments :=
  ⟨ds.byUri.insert uri (.new uri text version)⟩

/-- Replaces the text of a document, and opens it when it was not open. -/
def update (ds : OpenDocuments) (uri : String) (text : Text) (version : Int) : OpenDocuments :=
  match ds.get? uri with
  | none => ds.opened uri text version
  | some d => ⟨ds.byUri.insert uri (d.setContent text version)⟩

/-- Changes an open document. There is no result when it is not open. -/
def applyChanges? (ds : OpenDocuments) (uri : String) (changes : List Change) (version : Int) :
    Option OpenDocuments :=
  (ds.get? uri).map fun d => ⟨ds.byUri.insert uri (d.applyChanges changes version)⟩

def close (ds : OpenDocuments) (uri : String) : OpenDocuments := ⟨ds.byUri.erase uri⟩

end OpenDocuments

end AbnfServer
