-- Places in a text as an editor names them: a line and a column in UTF-16
-- units, both words of 32 bits, and the ranges between two places.
import AbnfServer.Text.Basic

namespace AbnfServer

/-- A line and a column, both counted from zero. -/
structure Position where
  line : UInt32
  character : UInt32
deriving DecidableEq, Repr, Inhabited

namespace Position

/-- The position with these numbers, taken modulo `2 ^ 32`. -/
def ofNat (line character : Nat) : Position := ⟨UInt32.ofNat line, UInt32.ofNat character⟩

/-- Positions are ordered by line, then by column: the order of their ranks. -/
def rank (p : Position) : Nat := p.line.toNat * 0x100000000 + p.character.toNat

instance : LE Position := ⟨fun a b => a.rank ≤ b.rank⟩

instance : LT Position := ⟨fun a b => a.rank < b.rank⟩

instance (a b : Position) : Decidable (a ≤ b) := inferInstanceAs (Decidable (a.rank ≤ b.rank))

instance (a b : Position) : Decidable (a < b) := inferInstanceAs (Decidable (a.rank < b.rank))

theorem le_def {a b : Position} : a ≤ b ↔ a.rank ≤ b.rank := Iff.rfl

theorem lt_def {a b : Position} : a < b ↔ a.rank < b.rank := Iff.rfl

/-- Two positions of one rank are one position. -/
theorem rank_inj {a b : Position} : a.rank = b.rank ↔ a = b := by
  constructor
  · intro h
    have ha := a.character.toNat_lt
    have hb := b.character.toNat_lt
    have hl : a.line.toNat = b.line.toNat := by unfold rank at h; omega
    have hc : a.character.toNat = b.character.toNat := by unfold rank at h; omega
    cases a; cases b
    simp_all [UInt32.toNat_inj]
  · rintro rfl; rfl

end Position

/-- The text from one position up to another. Nothing asks that the two stand
in order. -/
structure Range where
  start : Position
  stop : Position
deriving DecidableEq, Repr, Inhabited

/-- Two ranges touch when neither ends before the other starts: sharing an end
is enough. -/
def Range.touches (a b : Range) : Bool := a.start ≤ b.stop && b.start ≤ a.stop

theorem Range.touches_comm (a b : Range) : a.touches b = b.touches a := by
  simp [Range.touches, Bool.and_comm]

/-- A range of one document. -/
structure Location where
  uri : String
  range : Range
deriving DecidableEq, Repr, Inhabited

/-- The places that a jump may lead to. -/
inductive Target
  | single (place : Location)
  | multiple (places : List Location)

/-- No place is no target; one place is a target of its own kind. -/
def Target.ofLocations? : List Location → Option Target
  | [] => none
  | [l] => some (.single l)
  | ls => some (.multiple ls)

end AbnfServer
