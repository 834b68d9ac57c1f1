-- The tokens of a JSON text. The scanner goes through the text character by
-- character; between two characters it knows only what it has begun to read.
import AbnfServer.Json.Basic

namespace AbnfServer.Json

/-- A token. A scalar is a number or one of the three words. -/
inductive Token
  | openArray
  | closeArray
  | openObject
  | closeObject
  | comma
  | colon
  | scalar (value : Json)
  | text (s : String)

/-! ## Numbers -/

/-- The number of a digit of base 16. -/
def hexDigit? (c : Char) : Option Nat :=
  if c.isDigit then some (c.toNat - '0'.toNat)
  else if 'a' ≤ c ∧ c ≤ 'f' then some (c.toNat - 'a'.toNat + 10)
  else if 'A' ≤ c ∧ c ≤ 'F' then some (c.toNat - 'A'.toNat + 10)
  else none

def digitValue (c : Char) : Nat := c.toNat - '0'.toNat

/-- The parts of a number as it is written. -/
structure NumberText where
  negative : Bool
  whole : List Char
  fraction : Option (List Char)
  exponent : Option Int

namespace NumberText

/-- Takes digits off the start of a text; there must be one. -/
def digits? (t : List Char) : Option (List Char × List Char) :=
  match t.takeWhile Char.isDigit with
  | [] => none
  | ds => some (ds, t.dropWhile Char.isDigit)

def readFraction? : List Char → Option (Option (List Char) × List Char)
  | '.' :: t => (digits? t).map fun (ds, rest) => (some ds, rest)
  | t => some (none, t)

/-- The number that a row of digits denotes. -/
def value (ds : List Char) : Nat := ds.foldl (fun n d => n * 10 + digitValue d) 0

def readExponent? : List Char → Option (Option Int)
  | [] => some none
  | e :: t =>
    if e = 'e' ∨ e = 'E' then do
      let (negative, t) := match t with
        | '-' :: t => (true, t)
        | '+' :: t => (false, t)
        | t => (false, t)
      let (ds, rest) ← digits? t
      if !rest.isEmpty then none
      let n : Int := value ds
      return some (if negative then -n else n)
    else none

/-- Reads a whole word as a number. No digit may follow a leading zero. -/
def read? (t : List Char) : Option NumberText := do
  let (negative, t) := match t with
    | '-' :: t => (true, t)
    | t => (false, t)
  let (whole, t) ← digits? t
  if whole.head? == some '0' && 1 < whole.length then none
  let (fraction, t) ← readFraction? t
  let exponent ← readExponent? t
  return ⟨negative, whole, fraction, exponent⟩

/-! ### Floating-point numbers -/

/-- Adds digits to a significand as long as it fits into 64 bits. The result
is the significand, and how many digits were left out. -/
def significand (start : Nat) : List Char → Nat × Nat
  | [] => (start, 0)
  | d :: ds =>
    let next := start * 10 + digitValue d
    if next < UInt64.size then significand next ds else (start, ds.length + 1)

/-- Divides by a power of ten, at most 308 of them at a time. -/
def scaleDown (x : Float) (n : Nat) : Float :=
  if n ≤ 308 then x / Float.ofScientific 1 false n
  else scaleDown (x / Float.ofScientific 1 false 308) (n - 308)
termination_by n

/-- Multiplies or divides by a power of ten. -/
def scale (x : Float) : Int → Float
  | .ofNat n => x * Float.ofScientific 1 false n
  | .negSucc n => scaleDown x (n + 1)

/-- The floating-point number: the significand, rounded, times a power of ten,
rounded again. A number too large is none. -/
def real? (t : NumberText) : Option Float :=
  let (whole, dropped) := significand 0 t.whole
  let fraction := t.fraction.getD []
  let (digits, left) := significand whole fraction
  let exponent := (dropped : Int) - (fraction.length - left : Nat) + t.exponent.getD 0
  let size := if digits = 0 then 0 else scale (Float.ofNat digits) exponent
  if size.isInf then none else some (if t.negative then -size else size)

/-- The value of a number. Minus zero is no whole number. -/
def number? (t : NumberText) : Option Number :=
  let n := value t.whole
  if t.fraction.isNone && t.exponent.isNone && !t.negative && n < UInt64.size then some (.int n)
  else if t.fraction.isNone && t.exponent.isNone && t.negative && 0 < n && 2 * n ≤ UInt64.size then
    some (.int (-n))
  else t.real?.map .real

end NumberText

/-- The value of a word outside of quotes. -/
def scalar? (word : List Char) : Option Json :=
  if word = ['n', 'u', 'l', 'l'] then some null
  else if word = ['t', 'r', 'u', 'e'] then some (bool true)
  else if word = ['f', 'a', 'l', 's', 'e'] then some (bool false)
  else do
    let t ← NumberText.read? word
    num <$> t.number?

/-! ## The scanner -/

/-- What the scanner has begun to read; texts are kept in reverse. -/
inductive Scan
  | between
  | word (begun : List Char)
  | text (begun : List Char)
  | escape (begun : List Char)
  /-- Behind `\u`: the digits read so far, and their value. -/
  | unicode (begun : List Char) (count value : Nat)
  /-- Behind the first half of a pair: how much of the second `\u` is there. -/
  | pair (begun : List Char) (high : Nat) (slash : Bool)
  | lowHalf (begun : List Char) (high count value : Nat)

/-- The characters of a word outside of quotes. -/
def isWordChar (c : Char) : Bool := c.isAlphanum || c == '-' || c == '+' || c == '.'

/-- Reads a character where a token may start. -/
def begin? (c : Char) : Option (List Token × Scan) :=
  if c = ' ' ∨ c = '\t' ∨ c = '\n' ∨ c = '\r' then some ([], .between)
  else if c = '[' then some ([.openArray], .between)
  else if c = ']' then some ([.closeArray], .between)
  else if c = '\x7b' then some ([.openObject], .between)
  else if c = '\x7d' then some ([.closeObject], .between)
  else if c = ',' then some ([.comma], .between)
  else if c = ':' then some ([.colon], .between)
  else if c = '"' then some ([], .text [])
  else if isWordChar c then some ([], .word [c])
  else none

/-- The character that an escape of one letter stands for. -/
def unescape? (c : Char) : Option Char :=
  if c = '"' ∨ c = '\\' ∨ c = '/' then some c
  else if c = 'b' then some (Char.ofNat 8)
  else if c = 'f' then some (Char.ofNat 12)
  else if c = 'n' then some '\n'
  else if c = 'r' then some '\r'
  else if c = 't' then some '\t'
  else none

/-- Goes on behind the four digits of a `\u`. The second half of a pair may not
stand alone. -/
def afterUnicode? (begun : List Char) (value : Nat) : Option Scan :=
  if 0xD800 ≤ value ∧ value < 0xDC00 then some (.pair begun value false)
  else if 0xDC00 ≤ value ∧ value < 0xE000 then none
  else some (.text (Char.ofNat value :: begun))

/-- Goes on behind the four digits of the second `\u` of a pair. -/
def afterPair? (begun : List Char) (high low : Nat) : Option Scan :=
  if 0xDC00 ≤ low ∧ low < 0xE000 then
    some (.text (Char.ofNat (0x10000 + (high - 0xD800) * 0x400 + (low - 0xDC00)) :: begun))
  else none

/-- Reads one character: the tokens that it ends, and what has begun. -/
def step? : Scan → Char → Option (List Token × Scan)
  | .between, c => begin? c
  | .word begun, c =>
    if isWordChar c then some ([], .word (c :: begun))
    else do
      let value ← scalar? begun.reverse
      let (tokens, scan) ← begin? c
      return (.scalar value :: tokens, scan)
  | .text begun, c =>
    if c = '"' then some ([.text (.ofList begun.reverse)], .between)
    else if c = '\\' then some ([], .escape begun)
    else if c.toNat < 32 then none
    else some ([], .text (c :: begun))
  | .escape begun, c =>
    if c = 'u' then some ([], .unicode begun 0 0)
    else (unescape? c).map fun d => ([], .text (d :: begun))
  | .unicode begun count value, c => do
    let value := value * 16 + (← hexDigit? c)
    if count < 3 then return ([], .unicode begun (count + 1) value)
    else return ([], ← afterUnicode? begun value)
  | .pair begun high false, c => if c = '\\' then some ([], .pair begun high true) else none
  | .pair begun high true, c => if c = 'u' then some ([], .lowHalf begun high 0 0) else none
  | .lowHalf begun high count value, c => do
    let value := value * 16 + (← hexDigit? c)
    if count < 3 then return ([], .lowHalf begun high (count + 1) value)
    else return ([], ← afterPair? begun high value)

/-- The token that the end of the text completes. -/
def finish? : Scan → Option (List Token)
  | .between => some []
  | .word begun => (scalar? begun.reverse).map fun v => [.scalar v]
  | _ => none

/-- The tokens of a text. -/
def tokens? (t : List Char) : Option (List Token) := do
  let (read, scan) ← t.foldlM (fun (read, scan) c => do
    let (tokens, scan) ← step? scan c
    return (tokens.reverse ++ read, scan)) ([], .between)
  return read.reverse ++ (← finish? scan)

end AbnfServer.Json
