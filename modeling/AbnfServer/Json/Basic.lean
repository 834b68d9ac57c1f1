-- JSON values. An object is a list of members; whoever builds one from the
-- members of a text sorts them by key, and the last of several counts.

namespace AbnfServer

namespace Json

/-- A number of JSON. A whole number of at most 64 bits is exact; any other
number, and minus zero, is a floating-point number. -/
inductive Number
  | int (n : Int)
  | real (x : Float)

end Json

/-- A JSON value. -/
inductive Json
  | null
  | bool (b : Bool)
  | num (n : Json.Number)
  | str (s : String)
  | arr (items : List Json)
  | obj (members : List (String × Json))

namespace Json

instance : Inhabited Json := ⟨null⟩

def ofInt (n : Int) : Json := num (.int n)

def ofNat (n : Nat) : Json := ofInt n

/-! ## Building objects -/

/-- Puts a member into a sorted list. A member of the same key is replaced. -/
def insertMember (key : String) (value : Json) : List (String × Json) → List (String × Json)
  | [] => [(key, value)]
  | (k, v) :: rest =>
    if key < k then (key, value) :: (k, v) :: rest
    else if key = k then (key, value) :: rest
    else (k, v) :: insertMember key value rest

/-- The object of some members, in the order in which they were read. -/
def ofMembers (members : List (String × Json)) : Json :=
  obj (members.foldl (fun sorted e => insertMember e.1 e.2 sorted) [])

/-- An object of those members that are there. -/
def ofOptional (members : List (String × Option Json)) : Json :=
  obj (members.filterMap fun e => e.2.map fun v => (e.1, v))

/-! ## Taking values apart -/

/-- The member of an object under a key. -/
def get? (j : Json) (key : String) : Option Json :=
  match j with
  | obj members => (members.find? fun e => e.1 = key).map Prod.snd
  | _ => none

def asBool? : Json → Option Bool
  | bool b => some b
  | _ => none

def asString? : Json → Option String
  | str s => some s
  | _ => none

def asText? (j : Json) : Option (List Char) := j.asString?.map String.toList

def asArray? : Json → Option (List Json)
  | arr items => some items
  | _ => none

/-- A whole number. A number with a point or an exponent is none. -/
def asInt? : Json → Option Int
  | num (.int n) => some n
  | _ => none

/-- A whole number that is not negative. -/
def asNat? (j : Json) : Option Nat :=
  match j.asInt? with
  | some (.ofNat n) => some n
  | _ => none

/-- A whole number of 64 bits that is not negative. -/
def asNat64? (j : Json) : Option Nat := j.asNat?.filter (· < UInt64.size)

def isObject : Json → Bool
  | obj _ => true
  | _ => false

end Json

end AbnfServer
