-- The languages that messages are written in, and their tags.
import AbnfServer.Message.Chinese
import AbnfServer.Message.English
import AbnfServer.Text.Blank

namespace AbnfServer

/-- A language of the messages. -/
inductive Locale
  | english
  | chinese
deriving DecidableEq, Repr

namespace Locale

/-- Messages are in Chinese unless someone asks for another language. -/
instance : Inhabited Locale := ⟨chinese⟩

def all : List Locale := [english, chinese]

def tag : Locale → String
  | english => "en"
  | chinese => "zh-CN"

/-- A tag as it is looked up: trimmed, in lower case, with hyphens for low
lines. Only ASCII has lower case here. -/
def normalize (tag : String) : String :=
  .ofList ((Text.trim tag.toList).map fun c => if c = '_' then '-' else c.toLower)

/-- The language of a tag. A bare `zh` is simplified Chinese. -/
def ofTag? (tag : String) : Option Locale :=
  if ["en", "en-us", "en-gb"].contains (normalize tag) then some english
  else if ["zh", "zh-cn", "zh-hans"].contains (normalize tag) then some chinese
  else none

/-- The language of a tag, or the default one when the tag is unknown. -/
def ofTag (tag : String) : Locale := (ofTag? tag).getD default

/-- The messages of a language. -/
def catalog : Locale → Catalog
  | english => .english
  | chinese => .chinese

end Locale

end AbnfServer
