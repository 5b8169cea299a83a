/-!
Doubles as exact values. A finite double is a sign and a magnitude `mantissa · 2 ^ exponent`, kept
in the one form its bits give: the mantissa has 53 bits, or fewer at the least exponent. `nearest`
rounds a quotient of natural numbers to that form, and `ofBits` and `toBits` are the two directions
of the 64-bit layout. -/
namespace QuantumOps.Decimal

/-- A double: a signed multiple of a power of two, an infinity, or no number at all. -/
inductive Double
  | finite (negative : Bool) (mantissa : Nat) (exponent : Int)
  | infinite (negative : Bool)
  | nan
  deriving DecidableEq, Repr

/-- The integer nearest to `num / den`; a half goes to the even neighbour. -/
def roundHalfEven (num den : Nat) : Nat :=
  let q := num / den
  let r := num % den
  if 2 * r < den then q
  else if den < 2 * r then q + 1
  else q + q % 2

/-- `num / (den · base ^ place)` as a fraction of natural numbers. -/
def scaleDown (base num den : Nat) (place : Int) : Nat × Nat :=
  if 0 ≤ place then (num, den * Nat.pow base place.toNat)
  else (num * Nat.pow base (-place).toNat, den)

/-- The exponent of the leading binary digit of `num / den`. -/
def binaryExponent (num den : Nat) : Int :=
  let guess : Int := num.log2 - den.log2
  let scaled := scaleDown 2 num den guess
  if scaled.2 ≤ scaled.1 then guess else guess - 1

namespace Double

/-- The least exponent of a finite double. -/
def minExponent : Int := -1074

/-- The greatest exponent of a finite double. -/
def maxExponent : Int := 971

/-- The least mantissa of 53 bits, `2 ^ 52`. -/
def fullMantissa : Nat := 4503599627370496

/-- The zero of the given sign. -/
def zero (negative : Bool) : Double := .finite negative 0 minExponent

/-- The double with the given mantissa and exponent, where a mantissa of 54 bits has just been
rounded up to a power of two; beyond the greatest exponent it is an infinity. -/
def ofRounded (negative : Bool) (mantissa : Nat) (exponent : Int) : Double :=
  let carried := decide (mantissa = 2 * fullMantissa)
  let exponent := if carried then exponent + 1 else exponent
  if maxExponent < exponent then .infinite negative
  else .finite negative (if carried then fullMantissa else mantissa) exponent

/-- The double nearest to `± num / den`; a half goes to the even mantissa. -/
def nearest (negative : Bool) (num den : Nat) : Double :=
  if num = 0 then zero negative
  else
    let exponent := max (binaryExponent num den - 52) minExponent
    let scaled := scaleDown 2 num den exponent
    ofRounded negative (roundHalfEven scaled.1 scaled.2) exponent

/-- Reads the 64-bit layout: a sign bit, eleven bits of exponent and 52 bits of fraction. -/
def ofBits (bits : UInt64) : Double :=
  let n := bits.toNat
  let negative := decide (n / (2048 * fullMantissa) = 1)
  let field : Nat := n / fullMantissa % 2048
  let fraction : Nat := n % fullMantissa
  if field = 2047 then
    if fraction = 0 then .infinite negative else .nan
  else if field = 0 then .finite negative fraction minExponent
  else .finite negative (fullMantissa + fraction) (field - 1075)

/-- Writes the 64-bit layout. -/
def toBits (d : Double) : UInt64 :=
  let signed (negative : Bool) (n : Nat) : UInt64 :=
    UInt64.ofNat (if negative then 2048 * fullMantissa + n else n)
  match d with
  | .nan => 0x7ff8000000000000
  | .infinite negative => signed negative (2047 * fullMantissa)
  | .finite negative mantissa exponent =>
    if mantissa < fullMantissa then signed negative mantissa
    else signed negative ((exponent + 1074).toNat * fullMantissa + mantissa)

end Double
end QuantumOps.Decimal
