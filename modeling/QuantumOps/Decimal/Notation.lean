import QuantumOps.Decimal.Shortest

/-!
How numbers are written. `Double.chars` writes a double by its shortest decimal, positionally
when the leading digit stands at a power of ten from -4 to 15 and with an exponent otherwise.
`Double.rounded` writes twelve significant digits, always with an exponent. -/
namespace QuantumOps.Decimal

/-- The exponent part: a sign and at least two digits. -/
def exponentChars (exponent : Int) : List Char :=
  let digits := Nat.toDigits 10 exponent.natAbs
  'e' :: (if exponent < 0 then '-' else '+') ::
    (if digits.length < 2 then '0' :: digits else digits)

/-- The digits with a point after the first; a single digit has no point. -/
def pointed : List Char → List Char
  | [] => []
  | [d] => [d]
  | d :: rest => d :: '.' :: rest

/-- The digits `ds`, the first of which stands at `10 ^ leading`, in positional notation. -/
def positional (ds : List Char) (leading : Int) : List Char :=
  if leading < 0 then
    '0' :: '.' :: (List.replicate ((-leading).toNat - 1) '0' ++ ds)
  else
    let whole := leading.toNat + 1
    if ds.length ≤ whole then ds ++ List.replicate (whole - ds.length) '0'
    else ds.take whole ++ '.' :: ds.drop whole

/-- The least power of ten at which a leading digit is written positionally. -/
def leastPositional : Int := -4

/-- The greatest power of ten at which a leading digit is written positionally. -/
def greatestPositional : Int := 15

/-- A decimal in positional notation, or with an exponent where that would be long. -/
def chars (d : Decimal) : List Char :=
  let ds := Nat.toDigits 10 d.significand
  let leading := d.exponent + ds.length - 1
  if leastPositional ≤ leading ∧ leading ≤ greatestPositional then positional ds leading
  else pointed ds ++ exponentChars leading

/-- A minus sign for a negative number. -/
def signed (negative : Bool) (cs : List Char) : List Char :=
  if negative then '-' :: cs else cs

/-- How many significant digits `Double.rounded` writes. -/
def roundedDigits : Nat := 12

/-- `num / den` rounded to twelve significant digits; a half goes to the even digit. -/
def roundTo (num den : Nat) : Decimal :=
  let place := leadingExponent num den - (roundedDigits - 1 : Nat)
  let scaled := scaleDown 10 num den place
  let digits := roundHalfEven scaled.1 scaled.2
  if digits = Nat.pow 10 roundedDigits then ⟨Nat.pow 10 (roundedDigits - 1), place + 1⟩
  else ⟨digits, place⟩

namespace Double

/-- A double written by its shortest decimal. -/
def chars : Double → List Char
  | .nan => ['n', 'a', 'n']
  | .infinite negative => signed negative ['i', 'n', 'f']
  | .finite negative mantissa exponent => signed negative (shortest mantissa exponent).chars

/-- A double written with twelve significant digits; both zeros are `0`. -/
def rounded : Double → List Char
  | .nan => ['n', 'a', 'n']
  | .infinite negative => signed negative ['i', 'n', 'f']
  | .finite negative mantissa exponent =>
    if mantissa = 0 then ['0']
    else
      let value := magnitude mantissa exponent
      let d := roundTo value.1 value.2
      let ds := Nat.toDigits 10 d.significand
      signed negative (pointed ds ++ exponentChars (d.exponent + ds.length - 1))

end Double
end QuantumOps.Decimal
