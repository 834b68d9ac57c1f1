-- The canonical layout of a text: each line that defines a rule is written
-- as `name operator body` with single spaces and no indentation. All other
-- lines stay as they are.
import AbnfServer.Rule.Definition

namespace AbnfServer.Rule

/-- A definition in its canonical form. An empty body leaves no space behind. -/
def DefinitionLine.layout (d : DefinitionLine) : Text :=
  d.name ++ ' ' :: d.operator.text ++ (if d.body.isEmpty then [] else ' ' :: d.body)

/-- The carriage return that ends a line, if one does. -/
def lineEnding (line : Text) : Text := if line.getLast? = some '\r' then ['\r'] else []

/-- A line in canonical form. Its last carriage return is kept. -/
def layoutLine (line : Text) : Text :=
  match DefinitionLine.read? line with
  | none => line
  | some d => d.layout ++ lineEnding line

/-- A text in canonical form. -/
def layout (text : Text) : Text := Text.joinLines (text.lines.map layoutLine)

/-- The canonical form of a text that is not yet in it. -/
def layout? (text : Text) : Option Text := if layout text = text then none else some (layout text)

end AbnfServer.Rule
