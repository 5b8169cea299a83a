/-!
The numbers that gate parameters, matrices and rates are made of. Every formula of the library is
written against this interface, so that it can be run with doubles and reasoned about with real
numbers. -/
namespace QuantumOps

/-- Numbers with the arithmetic, the functions and the written form that the library needs. -/
class Numeric (R : Type) extends Add R, Sub R, Mul R, Div R, Neg R, BEq R where
  ofNat : Nat → R
  pi : R
  euler : R
  sqrt : R → R
  sin : R → R
  cos : R → R
  tan : R → R
  asin : R → R
  acos : R → R
  atan : R → R
  exp : R → R
  log : R → R
  abs : R → R
  pow : R → R → R
  /-- The angle of the point with the second number as first coordinate. -/
  atan2 : R → R → R
  /-- The square root of the sum of two squares. -/
  hypot : R → R → R
  lt : R → R → Bool
  isFinite : R → Bool
  /-- The number that a numeral denotes. -/
  ofNumeral : String → R
  /-- The shortest text that denotes the number. -/
  text : R → String
  /-- The number written with twelve significant digits. -/
  rounded : R → String

namespace Numeric

variable {R : Type} [Numeric R]

instance (priority := low) (n : Nat) : OfNat R n := ⟨ofNat n⟩

/-- The larger of two numbers; the first when neither is below the other. -/
def max (a b : R) : R := if lt a b then b else a

/-- The smaller of two numbers; the first when neither is below the other. -/
def min (a b : R) : R := if lt b a then b else a

/-- The number as it is shown everywhere: its shortest text, with `.0` after a whole number. -/
def format (x : R) : String :=
  let t := text x
  if t.toList.any (fun c => c = '.' || c = 'e' || c = 'E' || c = 'n') then t else t ++ ".0"

/-- One over the square root of two. -/
def sqrtHalf : R := 1 / sqrt 2

/-- How far the squared norm of a gate may be from one. -/
def unitaryTolerance : R := 1 / 1000000

/-- The distance from one to the next double. -/
def epsilon : R := 1 / 4503599627370496

end Numeric
end QuantumOps
