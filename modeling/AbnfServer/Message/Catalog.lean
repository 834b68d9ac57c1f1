-- A catalog holds all that the server says to a user, in one language.
import AbnfServer.Message.Template
import AbnfServer.Rule.Core

namespace AbnfServer

/-- The messages of one language. -/
structure Catalog where
  /-- What a core rule stands for. -/
  describe : Rule.CoreRule → String
  coreRuleTitle : String
  userRuleTitle : String
  userRuleHint : String
  definitionLabel : String
  sourceLabel : String
  source : String
  invalidRuleName : String
  /-- A template: the argument is the name of the rule. -/
  ruleNotDefined : String
  /-- A template: the argument is the reason. -/
  renameFailed : String
  abnfRule : String

namespace Catalog

/-- Says that a rule is not defined. -/
def notDefined (c : Catalog) (name : Text) : Text := Template.fill [name] c.ruleNotDefined.toList

/-- Says that a rename failed, and why. -/
def failedRename (c : Catalog) (reason : Text) : Text :=
  Template.fill [reason] c.renameFailed.toList

end Catalog

end AbnfServer
