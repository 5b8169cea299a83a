import QuantumOps.Decimal.Basic

/-!
The shortest decimal of a double: of the decimals that read back to it, one with the fewest digits,
and among those the nearest, a tie going to the even digit. Only the two neighbours of the value on
each decimal grid can qualify, so the grids of 1, 2, … 17 digits are tried in turn. -/
namespace QuantumOps.Decimal

/-- The exponent of the leading decimal digit of `num / den`, which is positive. -/
def leadingExponent (num den : Nat) : Int :=
  if den ≤ num then (digitCount (num / den) : Int) - 1
  else -(digitCount ((den - 1) / num) : Int)

/-- The neighbours of `num / den` on the grid of the multiples of `10 ^ place`, the nearer first. -/
def neighbours (num den : Nat) (place : Int) : List Decimal :=
  let scaled := scaleDown 10 num den place
  let lower := scaled.1 / scaled.2
  if lower = roundHalfEven scaled.1 scaled.2 then [⟨lower, place⟩, ⟨lower + 1, place⟩]
  else [⟨lower + 1, place⟩, ⟨lower, place⟩]

/-- Moves trailing zeros of the significand into the exponent. -/
def trim (d : Decimal) : Decimal :=
  if d.significand ≠ 0 ∧ d.significand % 10 = 0 then
    trim ⟨d.significand / 10, d.exponent + 1⟩
  else d
termination_by d.significand
decreasing_by omega

/-- The decimal that is exactly `mantissa · 2 ^ exponent`. -/
def exact (mantissa : Nat) (exponent : Int) : Decimal :=
  if 0 ≤ exponent then ⟨mantissa * Nat.pow 2 exponent.toNat, 0⟩
  else ⟨mantissa * Nat.pow 5 (-exponent).toNat, exponent⟩

/-- The magnitude `mantissa · 2 ^ exponent` as a fraction of natural numbers. -/
def magnitude (mantissa : Nat) (exponent : Int) : Nat × Nat :=
  scaleDown 2 mantissa 1 (-exponent)

/-- The shortest decimal of the double `mantissa · 2 ^ exponent`. Every double has one of at most
17 digits; the exact decimal stands behind the search so that the result reads back in any case. -/
def shortest (mantissa : Nat) (exponent : Int) : Decimal :=
  if mantissa = 0 then ⟨0, 0⟩
  else
    let value := magnitude mantissa exponent
    let leading := leadingExponent value.1 value.2
    let readsBack (d : Decimal) : Bool := d.toDouble false = .finite false mantissa exponent
    let found := (List.range 17).findSome? fun (n : Nat) =>
      (neighbours value.1 value.2 (leading - n)).find? readsBack
    trim (found.getD (exact mantissa exponent))

end QuantumOps.Decimal
