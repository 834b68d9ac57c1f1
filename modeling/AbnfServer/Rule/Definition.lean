-- Lines that define a rule, and the table of the rules that a text defines.
-- A line defines a rule when, blanks at its ends aside, it reads
-- `name = body` or `name =/ body`. No other line is looked at any closer.
import AbnfServer.Dict
import AbnfServer.Rule.Name
import AbnfServer.Text.Blank
import AbnfServer.Text.Position

namespace AbnfServer.Rule

/-- What a definition does to its rule. -/
inductive Operator
  | defines
  | extends
deriving DecidableEq, Repr

/-- The text of an operator: `=` or `=/`. -/
def Operator.text : Operator → Text
  | .defines => ['=']
  | .extends => ['=', '/']

/-- The parts of a line that defines a rule. -/
structure DefinitionLine where
  indent : Text
  name : Text
  operator : Operator
  body : Text
deriving DecidableEq, Repr

namespace DefinitionLine

/-- Takes the operator off the start of a text. A slash behind the equals
sign always belongs to the operator. -/
def readOperator? : Text → Option (Operator × Text)
  | '=' :: '/' :: t => some (.extends, t)
  | '=' :: t => some (.defines, t)
  | _ => none

/-- Reads a line. The name is the longest one that stands there. -/
def read? (line : Text) : Option DefinitionLine := do
  let t := line.trim
  let name := t.takeWhile isNameChar
  if !isName name then none
  let (operator, body) ← readOperator? (Text.trimStart (t.dropWhile isNameChar))
  return ⟨line.indent, name, operator, Text.trim body⟩

/-- Where the name stands, when `d` is the line of number `n`. -/
def nameRange (d : DefinitionLine) (n : Nat) : Range :=
  ⟨.ofNat n d.indent.units, .ofNat n (d.indent.units + d.name.units)⟩

end DefinitionLine

/-! ## The symbol table -/

/-- Where each rule is defined. -/
abbrev SymbolTable := Dict Text Location

/-- The rules that the lines define, one entry for each line that defines one,
when the first line has number `n`. -/
def definitionSites (uri : String) : Nat → List Text → List (Text × Location)
  | _, [] => []
  | n, l :: ls =>
    match DefinitionLine.read? l with
    | none => definitionSites uri (n + 1) ls
    | some d => (d.name, ⟨uri, d.nameRange n⟩) :: definitionSites uri (n + 1) ls

/-- The table of the rules that a text defines. Of two definitions of one rule
the later one counts. -/
def scanDefinitions (uri : String) (text : Text) : SymbolTable :=
  (definitionSites uri 0 text.lines).foldl (fun table e => table.insert e.1 e.2) ∅

/-- A defined rule, as an outline shows it. -/
structure Symbol where
  name : Text
  location : Location
deriving DecidableEq, Repr

end AbnfServer.Rule
