import Mathlib
import QuantumOps.Numeric.Basic
import QuantumOps.Decimal.Numeral

/-! The real numbers as the numbers of the library. Every function is the exact one, and a numeral
denotes the decimal that it spells, so that formulas can be compared without rounding. -/
namespace QuantumOps
open Classical

/-- The number that a numeral spells, without rounding. -/
noncomputable def Decimal.toReal (d : Decimal) : ℝ := d.significand * (10 : ℝ) ^ d.exponent

noncomputable instance realNumeric : Numeric ℝ where
  ofNat n := n
  pi := Real.pi
  euler := Real.exp 1
  sqrt := Real.sqrt
  sin := Real.sin
  cos := Real.cos
  tan := Real.tan
  asin := Real.arcsin
  acos := Real.arccos
  atan := Real.arctan
  exp := Real.exp
  log := Real.log
  abs x := |x|
  pow x y := x ^ y
  atan2 y x := Complex.arg ⟨x, y⟩
  hypot x y := Real.sqrt (x * x + y * y)
  lt x y := decide (x < y)
  isFinite _ := true
  ofNumeral s := (Decimal.ofNumeral s.toList).toReal
  -- Some text that denotes the number, where there is one.
  text x := Classical.epsilon fun s => (Decimal.ofNumeral s.toList).toReal = x
  rounded x := Classical.epsilon fun s => (Decimal.ofNumeral s.toList).toReal = x

namespace Numeric

@[simp] theorem ofNat_real (n : ℕ) : (ofNat n : ℝ) = n := rfl

@[simp] theorem zero_real : @OfNat.ofNat ℝ 0 (instOfNat 0) = 0 := Nat.cast_zero

@[simp] theorem one_real : @OfNat.ofNat ℝ 1 (instOfNat 1) = 1 := Nat.cast_one

@[simp] theorem pi_real : (pi : ℝ) = Real.pi := rfl

@[simp] theorem sqrt_real (x : ℝ) : sqrt x = Real.sqrt x := rfl

@[simp] theorem sin_real (x : ℝ) : sin x = Real.sin x := rfl

@[simp] theorem cos_real (x : ℝ) : cos x = Real.cos x := rfl

@[simp] theorem atan2_real (y x : ℝ) : atan2 y x = Complex.arg ⟨x, y⟩ := rfl

@[simp] theorem hypot_real (x y : ℝ) : hypot x y = Real.sqrt (x * x + y * y) := rfl

@[simp] theorem exp_real (x : ℝ) : exp x = Real.exp x := rfl

@[simp] theorem abs_real (x : ℝ) : abs x = |x| := rfl

@[simp] theorem lt_real (x y : ℝ) : lt x y = decide (x < y) := rfl

@[simp] theorem beq_real (x y : ℝ) : (x == y) = decide (x = y) := rfl

@[simp] theorem sqrtHalf_real : (sqrtHalf : ℝ) = Real.sqrt 2 / 2 := by
  have h2 : Real.sqrt 2 * Real.sqrt 2 = 2 := Real.mul_self_sqrt (by norm_num)
  rw [sqrtHalf, sqrt_real, one_real, div_eq_div_iff (by positivity) (by norm_num), one_mul]
  exact h2.symm

end Numeric
end QuantumOps
