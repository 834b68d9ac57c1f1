-- The shortest decimal of a binary floating-point number: of all decimals
-- that read back as the number, one with the fewest digits, and of those the
-- nearest. Computed in whole numbers, grid by grid.

namespace AbnfServer

/-- The decimal `digits * 10 ^ exponent`. -/
structure Decimal where
  digits : Nat
  exponent : Int
deriving DecidableEq, Repr

/-- The number `mantissa * 2 ^ exponent` among the numbers of its format. Below
a power of two the next number is only half as far away as above it. -/
structure Binary where
  mantissa : Nat
  exponent : Int
  narrowBelow : Bool
deriving DecidableEq, Repr

namespace Binary

/-- The bit in front of the 52 that are stored, which is set in every number but
the very small ones. -/
def hiddenBit : Nat := 0x10000000000000

/-- The size of a finite number, its sign aside. -/
def ofFloat (x : Float) : Binary :=
  let bits := x.toBits.toNat
  let fraction : Nat := bits % hiddenBit
  let scale : Nat := bits / hiddenBit % 2048
  if scale = 0 then ⟨fraction, -1074, false⟩
  else ⟨hiddenBit + fraction, (scale : Int) - 1075, fraction = 0 && 1 < scale⟩

/-- The multiple of `10 ^ k` that is nearest to the number, if it reads back as
the number. All sizes are in quarters of the last binary place, over a common
denominator; a half goes to the even neighbour. -/
def onGrid? (b : Binary) (k : Int) : Option Nat :=
  let quarter := b.exponent - 2
  let scaled (n : Nat) := n * Nat.pow 2 quarter.toNat * Nat.pow 10 (-k).toNat
  let unit := Nat.pow 2 (-quarter).toNat * Nat.pow 10 k.toNat
  let value := scaled (4 * b.mantissa)
  let low := scaled (4 * b.mantissa - if b.narrowBelow then 1 else 2)
  let high := scaled (4 * b.mantissa + 2)
  let readsBack (n : Nat) : Bool :=
    if b.mantissa % 2 = 0 then low ≤ n * unit && n * unit ≤ high
    else low < n * unit && n * unit < high
  let below := value / unit
  let left := value - below * unit
  let right := (below + 1) * unit - value
  let nearer := if left < right || (left == right && below % 2 == 0) then below else below + 1
  let other := if nearer = below then below + 1 else below
  [nearer, other].find? fun n => 0 < n && readsBack n

/-- The shortest decimal. No grid is coarser than `10 ^ 309` or finer than
`10 ^ -330` for a number of 64 bits. -/
def shortest (b : Binary) : Decimal :=
  ((List.range 640).findSome? fun (i : Nat) =>
    let k : Int := 309 - i
    (b.onGrid? k).map fun n => ⟨n, k⟩).getD ⟨0, 0⟩

end Binary

end AbnfServer
