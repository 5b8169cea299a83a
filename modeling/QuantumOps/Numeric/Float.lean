import QuantumOps.Numeric.Basic
import QuantumOps.Decimal.Numeral
import QuantumOps.Decimal.Notation
import QuantumOps.Numeric.Length

/-!
Doubles as numbers. Arithmetic and the elementary functions are those of the machine; reading and
writing are exact up to one rounding. -/
namespace QuantumOps

open Decimal (Double)

/-- The double that a number of the machine is. -/
def Decimal.Double.ofFloat (x : Float) : Double := .ofBits x.toBits

/-- The number of the machine that a double is. -/
def Decimal.Double.toFloat (d : Double) : Float := .ofBits d.toBits

instance : Numeric Float where
  ofNat := Float.ofNat
  pi := (Decimal.mk 3141592653589793238 (-18)).toDouble false |>.toFloat
  euler := (Decimal.mk 2718281828459045235 (-18)).toDouble false |>.toFloat
  sqrt := Float.sqrt
  sin := Float.sin
  cos := Float.cos
  tan := Float.tan
  asin := Float.asin
  acos := Float.acos
  atan := Float.atan
  exp := Float.exp
  log := Float.log
  abs := Float.abs
  pow := Float.pow
  atan2 := Float.atan2
  hypot := Length.ofVector
  lt x y := x < y
  isFinite := Float.isFinite
  ofNumeral s := ((Decimal.ofNumeral s.toList).toDouble false).toFloat
  text x := String.ofList (Double.ofFloat x).chars
  rounded x := String.ofList (Double.ofFloat x).rounded

end QuantumOps
