import QuantumOps.Decimal.Double

/-!
Decimals `significand · 10 ^ exponent`, and the double nearest to one. Numbers far outside the
range of a double are settled by their size alone, so that an exponent of a million digits costs
nothing. -/
namespace QuantumOps

/-- The number `significand · 10 ^ exponent`. -/
structure Decimal where
  significand : Nat
  exponent : Int
  deriving DecidableEq, Repr

namespace Decimal

/-- How many decimal digits `n` has; zero has one. -/
def digitCount (n : Nat) : Nat := (Nat.toDigits 10 n).length

/-- A decimal below ten to this power is nearer to zero than to the least double. -/
def leastPower : Int := -330

/-- A decimal not below ten to this power is beyond the greatest double. -/
def greatestPower : Int := 309

/-- The double nearest to `± d`; a half goes to the even mantissa. -/
def toDouble (negative : Bool) (d : Decimal) : Double :=
  let top : Int := digitCount d.significand + d.exponent
  if d.significand = 0 ∨ top < leastPower then .zero negative
  else if greatestPower < top then .infinite negative
  else
    let value := scaleDown 10 d.significand 1 (-d.exponent)
    .nearest negative value.1 value.2

end Decimal
end QuantumOps
