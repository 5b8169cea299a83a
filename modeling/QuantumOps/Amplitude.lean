import QuantumOps.Numeric.Basic

/-!
Complex numbers with two numbers as parts: the amplitudes of states and the entries of unitary
matrices. -/
namespace QuantumOps

/-- A complex number. -/
structure Amplitude (R : Type) where
  re : R
  im : R
  deriving Repr

namespace Amplitude

variable {R : Type} [Numeric R]

/-- Equal parts make equal amplitudes. -/
instance : BEq (Amplitude R) := ⟨fun z w => z.re == w.re && z.im == w.im⟩

def ofReal (x : R) : Amplitude R := ⟨x, 0⟩

@[simp] theorem ofReal_re (x : R) : (ofReal x).re = x := rfl

@[simp] theorem ofReal_im (x : R) : (ofReal x).im = 0 := rfl

instance (n : Nat) : OfNat (Amplitude R) n := ⟨ofReal (OfNat.ofNat n)⟩

@[simp] theorem zero_re : (0 : Amplitude R).re = 0 := rfl

@[simp] theorem zero_im : (0 : Amplitude R).im = 0 := rfl

@[simp] theorem one_re : (1 : Amplitude R).re = 1 := rfl

@[simp] theorem one_im : (1 : Amplitude R).im = 0 := rfl

def i : Amplitude R := ⟨0, 1⟩

@[simp] theorem i_re : (i : Amplitude R).re = 0 := rfl

@[simp] theorem i_im : (i : Amplitude R).im = 1 := rfl

instance : Neg (Amplitude R) := ⟨fun z => ⟨-z.re, -z.im⟩⟩

@[simp] theorem neg_re (z : Amplitude R) : (-z).re = -z.re := rfl

@[simp] theorem neg_im (z : Amplitude R) : (-z).im = -z.im := rfl

def conj (z : Amplitude R) : Amplitude R := ⟨z.re, -z.im⟩

/-- The multiple by a real number. -/
def scale (z : Amplitude R) (x : R) : Amplitude R := ⟨z.re * x, z.im * x⟩

@[simp] theorem scale_re (z : Amplitude R) (x : R) : (z.scale x).re = z.re * x := rfl

@[simp] theorem scale_im (z : Amplitude R) (x : R) : (z.scale x).im = z.im * x := rfl

/-- The point of the unit circle at an angle. -/
def phase (angle : R) : Amplitude R := ⟨Numeric.cos angle, Numeric.sin angle⟩

@[simp] theorem phase_re (angle : R) : (phase angle).re = Numeric.cos angle := rfl

@[simp] theorem phase_im (angle : R) : (phase angle).im = Numeric.sin angle := rfl

/-- Whether a number is unequal to itself, as only a result without a value is. -/
def isNaN (x : R) : Bool := !(x == x)

/-- Whether a number has a value that is not finite. -/
def isUnbounded (x : R) : Bool := !isNaN x && !Numeric.isFinite x

def isInfinite (z : Amplitude R) : Bool := isUnbounded z.re || isUnbounded z.im

/-- A part of an infinite amplitude seen from far away: one or minus one if it is infinite itself,
and zero otherwise. -/
def farPart (x : R) : R := if isUnbounded x then if Numeric.lt x 0 then -1 else 1 else 0

/-- The direction of an infinite amplitude; of a finite one its parts that have a value. -/
def direction (z : Amplitude R) : Amplitude R :=
  if z.isInfinite then ⟨farPart z.re, farPart z.im⟩
  else ⟨if isNaN z.re then 0 else z.re, if isNaN z.im then 0 else z.im⟩

/-- The product by parts. -/
def times (z w : Amplitude R) : Amplitude R :=
  ⟨z.re * w.re - z.im * w.im, z.re * w.im + z.im * w.re⟩

/-- The product. Where a factor is infinite and the parts come out without a value, the product is
infinite in the direction of the factors. -/
def mul (z w : Amplitude R) : Amplitude R :=
  let product := z.times w
  if isNaN product.re && isNaN product.im && (z.isInfinite || w.isInfinite) then
    (z.direction.times w.direction).scale (1 / 0)
  else product

instance : Mul (Amplitude R) := ⟨mul⟩

/-- The distance from zero. -/
def abs (z : Amplitude R) : R := Numeric.hypot z.re z.im

/-- The angle seen from zero. -/
def arg (z : Amplitude R) : R := Numeric.atan2 z.im z.re

/-- The imaginary part follows its sign, as a distance from zero and with an `i`. -/
def text (z : Amplitude R) : String :=
  Numeric.format z.re ++ (if Numeric.lt z.im 0 then "-" else "+") ++
    Numeric.format (Numeric.abs z.im) ++ "i"

end Amplitude
end QuantumOps
