-- JSON values as compact text. A floating-point number has the fewest digits
-- that read back, and always a point or an exponent.
import AbnfServer.Decimal.Shortest
import AbnfServer.Json.Basic

namespace AbnfServer.Json

/-! ## Numbers -/

/-- How a decimal is laid out: with a point alone when that point stands behind
digit `firstPoint` or later and behind digit `lastPoint` at most, else with an
exponent. The sign `plus` stands before an exponent that is not negative. -/
structure PointLayout where
  firstPoint : Int
  lastPoint : Int
  plus : String

/-- Four zeros at most stand between the point and the first digit, and at
most sixteen digits before the point. Every exponent has a sign. -/
def pointLayout : PointLayout := ⟨-4, 16, "+"⟩

/-- An exponent with its mark. -/
def exponentText (layout : PointLayout) (e : Int) : String :=
  "e" ++ (if 0 ≤ e then layout.plus else "") ++ toString e

/-- The text of a decimal. -/
def decimalText (layout : PointLayout) (d : Decimal) : String :=
  let digits := Nat.toDigits 10 d.digits
  let point := (digits.length : Int) + d.exponent
  if layout.firstPoint ≤ point && point ≤ layout.lastPoint then
    if 0 ≤ d.exponent then .ofList (digits ++ List.replicate d.exponent.toNat '0') ++ ".0"
    else if 0 < point then
      .ofList (digits.take point.toNat) ++ "." ++ .ofList (digits.drop point.toNat)
    else "0." ++ .ofList (List.replicate (-point).toNat '0' ++ digits)
  else
    let fraction := if digits.length = 1 then "" else "." ++ .ofList (digits.drop 1)
    .ofList (digits.take 1) ++ fraction ++ exponentText layout (point - 1)

/-- The text of a finite floating-point number. -/
def realText (x : Float) : String :=
  let sign := if UInt64.size ≤ 2 * x.toBits.toNat then "-" else ""
  let b := Binary.ofFloat x
  sign ++ if b.mantissa = 0 then "0.0" else decimalText pointLayout b.shortest

def Number.text : Number → String
  | .int n => toString n
  | .real x => realText x

/-! ## Strings -/

/-- The escape of a control character that has no short one. -/
def unicodeEscape (c : Char) : String :=
  let digits := Nat.toDigits 16 c.toNat
  "\\u" ++ .ofList (List.replicate (4 - digits.length) '0' ++ digits)

/-- A character inside quotes. -/
def quotedChar (c : Char) : String :=
  if c = '"' then "\\\""
  else if c = '\\' then "\\\\"
  else if c = '\n' then "\\n"
  else if c = '\r' then "\\r"
  else if c = '\t' then "\\t"
  else if c.toNat = 8 then "\\b"
  else if c.toNat = 12 then "\\f"
  else if c.toNat < 32 then unicodeEscape c
  else c.toString

def quoted (s : String) : String :=
  "\"" ++ s.toList.foldl (fun out c => out ++ quotedChar c) "" ++ "\""

/-! ## Values -/

mutual

/-- The text of a value, with no blanks between its parts. -/
def render : Json → String
  | null => "null"
  | bool true => "true"
  | bool false => "false"
  | num n => n.text
  | str s => quoted s
  | arr items => "[" ++ renderItems items ++ "]"
  | obj members => "\x7b" ++ renderMembers members ++ "\x7d"

/-- The items of an array, with commas between them. -/
def renderItems : List Json → String
  | [] => ""
  | [j] => render j
  | j :: k :: rest => render j ++ "," ++ renderItems (k :: rest)

/-- The members of an object, with commas between them. -/
def renderMembers : List (String × Json) → String
  | [] => ""
  | [(key, j)] => quoted key ++ ":" ++ render j
  | (key, j) :: m :: rest => quoted key ++ ":" ++ render j ++ "," ++ renderMembers (m :: rest)

end

end AbnfServer.Json
