-- What the server says about a rule under the cursor, and how that is
-- written in Markdown.
import AbnfServer.Message.Catalog
import AbnfServer.Rule.Core

namespace AbnfServer

/-- What there is to say about a rule. Only a core rule has a definition and
a source. -/
structure HoverText where
  name : Text
  title : String
  body : String
  definition : Option String
  source : Option String
deriving DecidableEq, Repr

namespace HoverText

/-- What a catalog says about a core rule. -/
def ofCoreRule (c : Catalog) (r : Rule.CoreRule) : HoverText where
  name := r.name.toList
  title := c.coreRuleTitle
  body := c.describe r
  definition := some r.definition
  source := some c.source

/-- What a catalog says about a name, if that is the name of a core rule. -/
def ofCoreName? (c : Catalog) (name : Text) : Option HoverText :=
  (Rule.CoreRule.ofName? name).map (ofCoreRule c)

/-- What a catalog says about a rule that the document defines. -/
def ofUserRule (c : Catalog) (name : Text) : HoverText where
  name := name
  title := c.userRuleTitle
  body := c.userRuleHint
  definition := none
  source := none

/-- A paragraph with a label in front, or nothing. -/
def labelled (label : String) : Option String → String
  | none => ""
  | some s => "\n\n**" ++ label ++ "**: " ++ s

/-- The text in Markdown, with the labels of a catalog. -/
def markdown (c : Catalog) (h : HoverText) : String :=
  "**" ++ h.title ++ ": " ++ .ofList h.name ++ "**\n\n" ++ h.body ++
    labelled c.definitionLabel (h.definition.map fun d => "`" ++ d ++ "`") ++
    labelled c.sourceLabel h.source

end HoverText

end AbnfServer
