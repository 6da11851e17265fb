/-!
# Numbers that are too large

A JSON number may have any size, but a reader that keeps numbers as doubles
refuses one that has no double.  `Magnitude.isTooLarge` decides this as such a
reader does: it collects at most 64 bits of digits, counts the other digits of
the whole part, and multiplies by a power of ten, rounding after each of the
two steps.
-/

namespace Heptagon.Json

/-- The double nearest to a natural number, ties to an even last place. -/
def nearestDouble (n : Nat) : Nat :=
  let shift := n.log2 + 1 - 53
  let unit := Nat.pow 2 shift
  let below := n / unit
  let rest := n % unit
  let up := unit < 2 * rest || (unit == 2 * rest && below % 2 == 1)
  (if up then below + 1 else below) * unit

/-- The least number that is rounded above all doubles. -/
def doubleBound : Nat := Nat.pow 2 1024 - Nat.pow 2 970

/-- A number as it is collected: digits, and the power of ten that they are multiplied by. -/
structure Magnitude where
  significand : Nat
  exponent : Int
  deriving Repr

namespace Magnitude

/-- Whether another digit still fits into 64 bits. -/
def fits (m : Magnitude) (digit : Nat) : Bool := m.significand * 10 + digit < Nat.pow 2 64

/-- Appends digits of the whole part; from the first one that does not fit, digits are only
counted. -/
def whole (m : Magnitude) : List Nat → Magnitude
  | [] => m
  | d :: ds =>
    if m.fits d then whole ⟨m.significand * 10 + d, m.exponent⟩ ds
    else ⟨m.significand, m.exponent + (ds.length + 1)⟩

/-- Appends digits of the fraction up to the first one that does not fit. -/
def fraction (m : Magnitude) : List Nat → Magnitude
  | [] => m
  | d :: ds => if m.fits d then fraction ⟨m.significand * 10 + d, m.exponent - 1⟩ ds else m

/-- Multiplies by a power of ten. -/
def scale (m : Magnitude) (by_ : Int) : Magnitude := ⟨m.significand, m.exponent + by_⟩

/-- Whether a number has no double. -/
def isTooLarge (m : Magnitude) : Bool :=
  if m.significand = 0 then false
  else if m.exponent < 0 then false
  else if 308 < m.exponent then true
  else doubleBound ≤ nearestDouble m.significand * nearestDouble (Nat.pow 10 m.exponent.toNat)

end Magnitude

end Heptagon.Json
