import QuantumOps.Proofs.Kak.Controlled

/-! Matrices that depend on an angle or a time in such a way that sums become products, so that
natural multiples become powers. Rotations about an axis are of this kind, and so are blocks and
tensor products of matrices of this kind. -/
namespace QuantumOps
open scoped Kronecker

section
variable {n : Type} [Fintype n] [DecidableEq n]

/-- Matrices that multiply as their angles add. -/
structure IsOneParameter (R : ℝ → Matrix n n ℂ) : Prop where
  map_zero : R 0 = 1
  map_add (x y : ℝ) : R (x + y) = R x * R y

namespace IsOneParameter

variable {R : ℝ → Matrix n n ℂ} {S T : Matrix n n ℂ}

theorem one : IsOneParameter fun _ => (1 : Matrix n n ℂ) :=
  ⟨rfl, fun _ _ => (mul_one 1).symm⟩

theorem rotation {P : Matrix n n ℂ} (h : P * P = 1) (c : ℝ) :
    IsOneParameter fun x => rotation (c * x) P where
  map_zero := by rw [mul_zero, rotation_zero]
  map_add x y := by rw [mul_add, rotation_mul h]

theorem rotation_half {P : Matrix n n ℂ} (h : P * P = 1) :
    IsOneParameter fun x => QuantumOps.rotation (-(x / 2)) P := by
  have hhalf (x : ℝ) : -(x / 2) = -(1 / 2) * x := by ring
  simpa only [← hhalf] using rotation h (-(1 / 2))

theorem conj (h : IsOneParameter R) (hST : S * T = 1) : IsOneParameter fun x => S * R x * T where
  map_zero := by rw [h.map_zero, mul_one, hST]
  map_add x y := by
    have hTS : T * S = 1 := mul_eq_one_comm.mp hST
    calc S * R (x + y) * T = S * R x * (R y * T) := by
          rw [h.map_add]
          simp only [mul_assoc]
      _ = S * R x * (T * S * (R y * T)) := by rw [hTS, one_mul]
      _ = S * R x * T * (S * R y * T) := by simp only [mul_assoc]

theorem mul_neg (h : IsOneParameter R) (x : ℝ) : R x * R (-x) = 1 := by
  rw [← h.map_add, add_neg_cancel, h.map_zero]

theorem isUnit_det (h : IsOneParameter R) (x : ℝ) : IsUnit (R x).det :=
  Matrix.isUnit_det_of_right_inverse (h.mul_neg x)

/-- The multiple of an angle belongs to the power. -/
theorem pow (h : IsOneParameter R) (x : ℝ) (k : ℕ) : R (x * k) = R x ^ k := by
  induction k with
  | zero => rw [Nat.cast_zero, mul_zero, h.map_zero, pow_zero]
  | succ k ih => rw [Nat.cast_succ, mul_add, mul_one, h.map_add, ih, pow_succ]

/-- Next to a fixed matrix, the multiple belongs to the power of what is left without it. -/
theorem pow_mul (h : IsOneParameter R) (hS : IsUnit S.det) (x : ℝ) (k : ℕ) :
    R (x * k) * S = (R x * S * S⁻¹) ^ k * S := by
  rw [Matrix.mul_nonsing_inv_cancel_right _ _ hS, h.pow]

end IsOneParameter

end

theorem IsOneParameter.parityBlocks {A B : ℝ → Matrix (Fin 2) (Fin 2) ℂ} (hA : IsOneParameter A)
    (hB : IsOneParameter B) : IsOneParameter fun x => parityBlocks (A x) (B x) where
  map_zero := by rw [hA.map_zero, hB.map_zero, parityBlocks_one]
  map_add x y := by rw [hA.map_add, hB.map_add, parityBlocks_mul]

theorem IsOneParameter.kronecker {A B : ℝ → Matrix (Fin 2) (Fin 2) ℂ} (hA : IsOneParameter A)
    (hB : IsOneParameter B) : IsOneParameter fun x => A x ⊗ₖ B x where
  map_zero := by rw [hA.map_zero, hB.map_zero, Matrix.one_kronecker_one]
  map_add x y := by rw [hA.map_add, hB.map_add, Matrix.mul_kronecker_mul]

end QuantumOps
