import Mathlib
import QuantumOps.Proofs.Kak.Local

/-! Controlled gates from rotations by a quarter turn. Rotations around the interaction change its
axes, and a rotation about a product of two involutions that commute, next to a rotation about each
of them, is a controlled gate up to a phase. -/
namespace QuantumOps
open Complex (I)
open Scalar (number)
open scoped Kronecker Real

section
variable {n : Type} [Fintype n] [DecidableEq n] {A B P Q : Matrix n n ℂ}

omit [Fintype n] in
@[simp] theorem rotation_zero (P : Matrix n n ℂ) : rotation 0 P = 1 := by simp [rotation]

theorem rotation_commute (h : A * B = B * A) (a b : ℝ) :
    rotation a A * rotation b B = rotation b B * rotation a A := by
  simp only [rotation, add_mul, mul_add, smul_mul_smul_comm, h, one_mul, mul_one]
  module

omit [Fintype n] in
theorem rotation_quarter (P : Matrix n n ℂ) :
    rotation (π / 4) P = ((√2 / 2 : ℝ) : ℂ) • (1 + I • P) := by
  simp only [rotation, Real.cos_pi_div_four, Real.sin_pi_div_four]
  module

omit [Fintype n] in
theorem rotation_minusQuarter (P : Matrix n n ℂ) :
    rotation (-(π / 4)) P = ((√2 / 2 : ℝ) : ℂ) • (1 - I • P) := by
  simp only [rotation, Real.cos_neg, Real.sin_neg, Real.cos_pi_div_four, Real.sin_pi_div_four]
  push_cast
  module

theorem sqrt_half_mul_self : ((√2 / 2 : ℝ) : ℂ) * ((√2 / 2 : ℝ) : ℂ) = 1 / 2 := by
  rw [← Complex.ofReal_mul, div_mul_div_comm, Real.mul_self_sqrt (by norm_num)]
  norm_num

/-- A quarter turn about an involution takes one that it anticommutes with to their product. -/
theorem rotation_quarter_conj (hQ : Q * Q = 1) (h : P * Q = -(Q * P)) (angle : ℝ) :
    rotation (π / 4) Q * rotation angle P * rotation (-(π / 4)) Q =
      rotation angle (I • (Q * P)) := by
  have hu : rotation (π / 4) Q * rotation (-(π / 4)) Q = 1 := by
    rw [rotation_mul hQ, add_neg_cancel, rotation_zero]
  have hP : rotation (π / 4) Q * P * rotation (-(π / 4)) Q = I • (Q * P) := by
    have hQPQ : Q * P * Q = -P := by rw [mul_assoc, h, mul_neg, ← mul_assoc, hQ, one_mul]
    have hprod : (1 + I • Q) * P * (1 - I • Q) = (2 * I) • (Q * P) := by
      simp only [add_mul, mul_sub, smul_mul_assoc, mul_smul_comm, smul_add, smul_smul, one_mul,
        mul_one, h, hQPQ, Complex.I_mul_I]
      module
    rw [rotation_quarter, rotation_minusQuarter]
    simp only [smul_mul_assoc, mul_smul_comm, hprod, smul_smul, ← mul_assoc, sqrt_half_mul_self]
    congr 1
    ring
  have hsplit : rotation angle P = (Real.cos angle : ℂ) • 1 + (Real.sin angle * I) • P := rfl
  rw [hsplit, mul_add, add_mul, mul_smul_comm, mul_one, smul_mul_assoc, hu, mul_smul_comm,
    smul_mul_assoc, hP, rotation]

theorem turn_quarter : turn (π / 4) = ((√2 / 2 : ℝ) : ℂ) * (1 + I) := by
  rw [turn_eq, Real.cos_pi_div_four, Real.sin_pi_div_four]
  ring

/-- The product of two involutions that commute, turned by each of them. -/
theorem controlled_eq (hA : A * A = 1) (hB : B * B = 1) (h : A * B = B * A) :
    turn (π / 4) • (rotation (π / 4) (A * B) * rotation (-(π / 4)) A * rotation (-(π / 4)) B) =
      (1 / 2 : ℂ) • (1 + A + B - A * B) := by
  have hABA : A * B * A = B := by rw [h, mul_assoc, hA, mul_one]
  have hABB : A * B * B = A := by rw [mul_assoc, hB, mul_one]
  have hr : turn (π / 4) * (((√2 / 2 : ℝ) : ℂ) * ((√2 / 2 : ℝ) : ℂ) * ((√2 / 2 : ℝ) : ℂ)) =
      (1 + I) / 4 := by
    rw [turn_quarter]
    linear_combination (1 + I) * (((√2 / 2 : ℝ) : ℂ) * ((√2 / 2 : ℝ) : ℂ) + 1 / 2) *
      sqrt_half_mul_self
  have hI : (1 + I) / 4 * (1 - I) = 1 / 2 := by linear_combination -(1 / 4) * Complex.I_mul_I
  have hprod : (1 + I • (A * B)) * (1 - I • A) * (1 - I • B) =
      (1 - I) • (1 + A + B - A * B) := by
    simp only [add_mul, mul_sub, sub_mul, smul_mul_assoc, mul_smul_comm, one_mul, mul_one, hABA,
      hABB, hB, smul_add, smul_sub, smul_smul, Complex.I_mul_I]
    module
  rw [rotation_quarter, rotation_minusQuarter, rotation_minusQuarter]
  simp only [smul_mul_assoc, mul_smul_comm, hprod, smul_smul]
  rw [← hI, ← hr]
  congr 1
  ring

end

theorem rotation_control (angle : ℝ) (P : Matrix (Fin 2) (Fin 2) ℂ) :
    rotation angle P ⊗ₖ (1 : Matrix (Fin 2) (Fin 2) ℂ) = rotation angle (P ⊗ₖ 1) := by
  simp only [rotation, Matrix.add_kronecker, Matrix.smul_kronecker, Matrix.one_kronecker_one]

theorem rotation_target (angle : ℝ) (P : Matrix (Fin 2) (Fin 2) ℂ) :
    (1 : Matrix (Fin 2) (Fin 2) ℂ) ⊗ₖ rotation angle P = rotation angle (1 ⊗ₖ P) := by
  simp only [rotation, Matrix.kronecker_add, Matrix.kronecker_smul, Matrix.one_kronecker_one]

theorem rotateX_toMatrix (a : ℝ) :
    (SingleGate.rotateX a).matrix.toMatrix = rotation (-(a / 2)) Pauli.x := by
  ext i j
  fin_cases i <;> fin_cases j <;> apply Complex.ext <;>
    simp [Pair.toMatrix, Pair.get, SingleGate.matrix, rotation, Pauli.x, -Complex.ofReal_cos,
      -Complex.ofReal_sin]

theorem rotateY_toMatrix (a : ℝ) :
    (SingleGate.rotateY a).matrix.toMatrix = rotation (-(a / 2)) Pauli.y := by
  ext i j
  fin_cases i <;> fin_cases j <;> apply Complex.ext <;>
    simp [Pair.toMatrix, Pair.get, SingleGate.matrix, rotation, Pauli.y, -Complex.ofReal_cos,
      -Complex.ofReal_sin]

theorem rotateZ_eq_rotation (a : ℝ) :
    (SingleGate.rotateZ a).matrix.toMatrix = rotation (-(a / 2)) Pauli.z := by
  ext i j
  fin_cases i <;> fin_cases j <;> apply Complex.ext <;>
    simp [Pair.toMatrix, Pair.get, SingleGate.matrix, rotation, Pauli.z, -Complex.ofReal_cos,
      -Complex.ofReal_sin]

section
variable {control target : ℕ} {g : SingleGate ℝ} {a b : ℝ} {P : Matrix (Fin 2) (Fin 2) ℂ}

theorem localMatrix?_rotation_control (hu : g.notUnitary? = none)
    (hm : g.matrix.toMatrix = rotation a P) (hab : a = b) :
    (Operation.record (.singleQubit (g.map number) control)).localMatrix? control target =
      some (rotation b (P ⊗ₖ 1)) := by
  rw [Operation.localMatrix?_control hu, hm, hab, rotation_control]

theorem localMatrix?_rotation_target (h : control ≠ target) (hu : g.notUnitary? = none)
    (hm : g.matrix.toMatrix = rotation a P) (hab : a = b) :
    (Operation.record (.singleQubit (g.map number) target)).localMatrix? control target =
      some (rotation b (1 ⊗ₖ P)) := by
  rw [Operation.localMatrix?_target hu h, hm, hab, rotation_target]

end

section
variable {P Q : Matrix (Fin 2) (Fin 2) ℂ}

theorem control_mul_control : (P ⊗ₖ (1 : Matrix (Fin 2) (Fin 2) ℂ)) * (Q ⊗ₖ 1) = (P * Q) ⊗ₖ 1 := by
  rw [← Matrix.mul_kronecker_mul, mul_one]

theorem target_mul_target : ((1 : Matrix (Fin 2) (Fin 2) ℂ) ⊗ₖ P) * (1 ⊗ₖ Q) = 1 ⊗ₖ (P * Q) := by
  rw [← Matrix.mul_kronecker_mul, mul_one]

theorem control_mul_target : (P ⊗ₖ (1 : Matrix (Fin 2) (Fin 2) ℂ)) * (1 ⊗ₖ Q) = P ⊗ₖ Q := by
  rw [← Matrix.mul_kronecker_mul, mul_one, one_mul]

theorem target_mul_control : ((1 : Matrix (Fin 2) (Fin 2) ℂ) ⊗ₖ Q) * (P ⊗ₖ 1) = P ⊗ₖ Q := by
  rw [← Matrix.mul_kronecker_mul, mul_one, one_mul]

theorem control_involutive (h : P * P = 1) :
    (P ⊗ₖ (1 : Matrix (Fin 2) (Fin 2) ℂ)) * (P ⊗ₖ 1) = 1 := by
  rw [control_mul_control, h, Matrix.one_kronecker_one]

theorem target_involutive (h : P * P = 1) :
    ((1 : Matrix (Fin 2) (Fin 2) ℂ) ⊗ₖ P) * (1 ⊗ₖ P) = 1 := by
  rw [target_mul_target, h, Matrix.one_kronecker_one]

theorem control_conj (h : star P = P) :
    star (P ⊗ₖ (1 : Matrix (Fin 2) (Fin 2) ℂ)) = P ⊗ₖ 1 := by
  rw [Matrix.star_eq_conjTranspose, Matrix.conjTranspose_kronecker, Matrix.conjTranspose_one,
    ← Matrix.star_eq_conjTranspose, h]

theorem target_conj (h : star P = P) :
    star ((1 : Matrix (Fin 2) (Fin 2) ℂ) ⊗ₖ P) = 1 ⊗ₖ P := by
  rw [Matrix.star_eq_conjTranspose, Matrix.conjTranspose_kronecker, Matrix.conjTranspose_one,
    ← Matrix.star_eq_conjTranspose, h]

theorem rotation_control_mem_unitary (h : P * P = 1) (hs : star P = P) (angle : ℝ) :
    rotation angle (P ⊗ₖ (1 : Matrix (Fin 2) (Fin 2) ℂ)) ∈ Matrix.unitaryGroup Both ℂ :=
  rotation_mem_unitary (control_involutive h) (control_conj hs) angle

theorem rotation_target_mem_unitary (h : P * P = 1) (hs : star P = P) (angle : ℝ) :
    rotation angle ((1 : Matrix (Fin 2) (Fin 2) ℂ) ⊗ₖ P) ∈ Matrix.unitaryGroup Both ℂ :=
  rotation_mem_unitary (target_involutive h) (target_conj hs) angle

end

namespace Pauli

theorem x_mul_y : x * y = I • z := by
  ext i j
  fin_cases i <;> fin_cases j <;> simp [x, y, z]

theorem y_mul_x : y * x = -I • z := by
  ext i j
  fin_cases i <;> fin_cases j <;> simp [x, y, z]

theorem x_mul_z : x * z = -I • y := by
  ext i j
  fin_cases i <;> fin_cases j <;> simp [x, y, z]

theorem z_mul_x : z * x = I • y := by
  ext i j
  fin_cases i <;> fin_cases j <;> simp [x, y, z]

end Pauli

end QuantumOps
