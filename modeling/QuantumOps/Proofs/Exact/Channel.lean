import Mathlib
import QuantumOps.Channel
import QuantumOps.Proofs.Exact.Matrix

/-! Channels with exact numbers, and density matrices written row by row as vectors. There the
products with a matrix from the left and from the right are one Kronecker product. -/
namespace QuantumOps
open scoped Kronecker Matrix

/-- The matrix of a channel or of its generator, acting on density matrices written row by row. -/
def Quad.toChannel (m : Matrix4 ℝ) : Matrix Both Both ℂ :=
  Matrix.of fun i j => ((m.get i).get j : ℂ)

theorem Quad.get_map {α β : Type} (f : α → β) (v : Quad α) (i : Both) :
    (v.map f).get i = f (v.get i) := by
  obtain ⟨i₁, i₂⟩ := i
  fin_cases i₁ <;> fin_cases i₂ <;> rfl

theorem Quad.get_zipWith {α β γ : Type} (f : α → β → γ) (v : Quad α) (w : Quad β) (i : Both) :
    (v.zipWith f w).get i = f (v.get i) (w.get i) := by
  obtain ⟨i₁, i₂⟩ := i
  fin_cases i₁ <;> fin_cases i₂ <;> rfl

namespace Matrix4

theorem toChannel_zero : (zero : Matrix4 ℝ).toChannel = 0 := by
  ext ⟨i₁, i₂⟩ ⟨j₁, j₂⟩
  fin_cases i₁ <;> fin_cases i₂ <;> fin_cases j₁ <;> fin_cases j₂ <;>
    exact Complex.ofReal_eq_zero.mpr Numeric.zero_real

theorem toChannel_add (m n : Matrix4 ℝ) : (m.add n).toChannel = m.toChannel + n.toChannel := by
  ext i j
  simp only [Quad.toChannel, Matrix.of_apply, Matrix.add_apply, add, Quad.get_zipWith]
  exact Complex.ofReal_add _ _

theorem toChannel_scale (x : ℝ) (m : Matrix4 ℝ) :
    (scale x m).toChannel = (x : ℂ) • m.toChannel := by
  ext i j
  simp only [Quad.toChannel, Matrix.of_apply, Matrix.smul_apply, scale, Quad.get_map]
  exact Complex.ofReal_mul _ _

end Matrix4

/-- The entries of a matrix row by row. -/
def rows : Matrix (Fin 2) (Fin 2) ℂ ≃ₗ[ℂ] (Both → ℂ) where
  toFun ρ k := ρ k.1 k.2
  invFun v := Matrix.of fun i j => v (i, j)
  left_inv _ := rfl
  right_inv _ := rfl
  map_add' _ _ := rfl
  map_smul' _ _ := rfl

theorem rows_eq_vec (ρ : Matrix (Fin 2) (Fin 2) ℂ) : rows ρ = Matrix.vec ρᵀ := rfl

theorem kronecker_mulVec_rows (A B ρ : Matrix (Fin 2) (Fin 2) ℂ) :
    (A ⊗ₖ B) *ᵥ rows ρ = rows (A * ρ * Bᵀ) := by
  rw [rows_eq_vec, Matrix.kronecker_mulVec_vec, rows_eq_vec]
  simp only [Matrix.transpose_mul, Matrix.transpose_transpose, mul_assoc]

/-- The exchange of the two entries off the diagonal of a density matrix. -/
def exchange : Matrix Both Both ℂ := Equiv.Perm.permMatrix ℂ (Equiv.prodComm (Fin 2) (Fin 2))

theorem exchange_mulVec_rows (ρ : Matrix (Fin 2) (Fin 2) ℂ) :
    exchange *ᵥ rows ρ = rows ρᵀ := by
  rw [exchange, Matrix.permMatrix_mulVec]
  rfl

end QuantumOps
