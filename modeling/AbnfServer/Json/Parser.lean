-- Values from tokens. The parser keeps the arrays and objects that are still
-- open on a stack, and knows what may come next.
import AbnfServer.Json.Token

namespace AbnfServer.Json

/-- An array or object that is still open, its parts in reverse. An object may
have a key whose value is still to come. -/
inductive Frame
  | array (items : List Json)
  | object (members : List (String × Json)) (key : Option String)

/-- What may come next. -/
inductive Expected
  | value
  /-- A value, or the end of the array. -/
  | firstItem
  | key
  /-- A key, or the end of the object. -/
  | firstKey
  | colon
  /-- A comma, or the end of what is open. -/
  | more
  /-- Nothing: the value is complete. -/
  | finished (value : Json)

/-- The frames that are open, the innermost first, and what may come next. -/
structure Reading where
  stack : List Frame
  expected : Expected

namespace Reading

/-- Adds a complete value to what is open. -/
def add? (stack : List Frame) (value : Json) : Option Reading :=
  match stack with
  | [] => some ⟨[], .finished value⟩
  | .array items :: rest => some ⟨.array (value :: items) :: rest, .more⟩
  | .object members (some key) :: rest =>
    some ⟨.object ((key, value) :: members) none :: rest, .more⟩
  | .object _ none :: _ => none

/-- Starts a value, or adds one that is a single token. -/
def beginValue? (stack : List Frame) : Token → Option Reading
  | .scalar value => add? stack value
  | .text s => add? stack (str s)
  | .openArray => some ⟨.array [] :: stack, .firstItem⟩
  | .openObject => some ⟨.object [] none :: stack, .firstKey⟩
  | _ => none

/-- Closes the innermost frame. -/
def close? : List Frame → Token → Option Reading
  | .array items :: rest, .closeArray => add? rest (arr items.reverse)
  | .object members none :: rest, .closeObject => add? rest (ofMembers members.reverse)
  | _, _ => none

/-- Reads a key. -/
def readKey? : List Frame → Token → Option Reading
  | .object members none :: rest, .text key => some ⟨.object members (some key) :: rest, .colon⟩
  | _, _ => none

/-- Goes on behind a comma. -/
def behindComma? : List Frame → Option Reading
  | .array items :: rest => some ⟨.array items :: rest, .value⟩
  | .object members key :: rest => some ⟨.object members key :: rest, .key⟩
  | [] => none

/-- Reads one token. -/
def step? (r : Reading) (t : Token) : Option Reading :=
  match r.expected with
  | .value => beginValue? r.stack t
  | .firstItem => (beginValue? r.stack t).or (close? r.stack t)
  | .key => readKey? r.stack t
  | .firstKey => (readKey? r.stack t).or (close? r.stack t)
  | .colon =>
    match t with
    | .colon => some ⟨r.stack, .value⟩
    | _ => none
  | .more =>
    match t with
    | .comma => behindComma? r.stack
    | t => close? r.stack t
  | .finished _ => none

/-- The value of a whole row of tokens. -/
def ofTokens? (tokens : List Token) : Option Json := do
  let r ← tokens.foldlM step? ⟨[], .value⟩
  match r.expected with
  | .finished value => some value
  | _ => none

end Reading

/-- Reads a JSON text. -/
def parse? (s : String) : Option Json := do Reading.ofTokens? (← tokens? s.toList)

end AbnfServer.Json
