import Mathlib
import QuantumOps.Proofs.Exact.Matrix

/-! The interaction `exp(i(x·XX + y·YY + z·ZZ))` of two qubits. It never leaves the span of 00 and
11 nor that of 01 and 10, so it is the sum of two blocks of order two, and so are the rotations
about the z-axis that surround it in a decomposition. -/
namespace QuantumOps
open Complex (I)
open scoped Kronecker

namespace Pauli

def x : Matrix (Fin 2) (Fin 2) ℂ := !![0, 1; 1, 0]

def y : Matrix (Fin 2) (Fin 2) ℂ := !![0, -I; I, 0]

def z : Matrix (Fin 2) (Fin 2) ℂ := !![1, 0; 0, -1]

theorem x_mul_x : x * x = 1 := by
  simp [x, Matrix.one_fin_two]

theorem y_mul_y : y * y = 1 := by
  simp [y, Matrix.one_fin_two]

theorem z_mul_z : z * z = 1 := by
  simp [z, Matrix.one_fin_two]

theorem x_conj : star x = x := by
  ext i j
  fin_cases i <;> fin_cases j <;> simp [x]

theorem y_conj : star y = y := by
  ext i j
  fin_cases i <;> fin_cases j <;> simp [y]

theorem z_conj : star z = z := by
  ext i j
  fin_cases i <;> fin_cases j <;> simp [z]

end Pauli

section
variable {n : Type} [Fintype n] [DecidableEq n]

/-- The matrix `cos(angle) + i·sin(angle)·P`. -/
noncomputable def rotation (angle : ℝ) (P : Matrix n n ℂ) : Matrix n n ℂ :=
  (Real.cos angle : ℂ) • 1 + (Real.sin angle * I) • P

omit [Fintype n] in
theorem rotation_neg (angle : ℝ) (P : Matrix n n ℂ) :
    rotation angle (-P) = rotation (-angle) P := by
  simp [rotation]

omit [Fintype n] in
theorem rotation_one (angle : ℝ) : rotation angle (1 : Matrix n n ℂ) = turn angle • 1 := by
  rw [rotation, turn_eq, add_smul]

theorem rotation_mul {P : Matrix n n ℂ} (h : P * P = 1) (a b : ℝ) :
    rotation a P * rotation b P = rotation (a + b) P := by
  simp only [rotation, add_mul, mul_add, smul_mul_smul_comm, h, one_mul, mul_one, Real.cos_add,
    Real.sin_add]
  push_cast
  have hI : (Complex.sin a * I) * (Complex.sin b * I) = -(Complex.sin a * Complex.sin b) := by
    linear_combination Complex.sin a * Complex.sin b * Complex.I_mul_I
  rw [hI]
  module

/-- A rotation by an involution that is its own adjoint is unitary. -/
theorem rotation_mem_unitary {P : Matrix n n ℂ} (h : P * P = 1) (hs : star P = P) (angle : ℝ) :
    rotation angle P ∈ Matrix.unitaryGroup n ℂ := by
  rw [Matrix.mem_unitaryGroup_iff]
  have hstar : star (rotation angle P) = rotation (-angle) P := by
    simp [rotation, hs, -Complex.ofReal_cos, -Complex.ofReal_sin]
  rw [hstar, rotation_mul h]
  simp [rotation]

/-- Both eigenspaces of an involution at once: the pair of eigenvalues `±1` replaced by another. -/
noncomputable def spectral (P : Matrix n n ℂ) (h : P * P = 1) : ℂ × ℂ →+* Matrix n n ℂ where
  toFun c := (c.1 / 2) • (1 + P) + (c.2 / 2) • (1 - P)
  map_one' := by
    simp only [Prod.fst_one, Prod.snd_one]
    module
  map_zero' := by simp
  map_add' c d := by
    simp only [Prod.fst_add, Prod.snd_add]
    module
  map_mul' c d := by
    have hp : (1 + P) * (1 + P) = (2 : ℂ) • (1 + P) := by
      simp only [add_mul, mul_add, h, one_mul, mul_one]
      module
    have hm : (1 - P) * (1 - P) = (2 : ℂ) • (1 - P) := by
      simp only [sub_mul, mul_sub, h, one_mul, mul_one]
      module
    have hpm : (1 + P) * (1 - P) = 0 := by
      simp only [add_mul, mul_sub, h, one_mul, mul_one]
      abel
    have hmp : (1 - P) * (1 + P) = 0 := by
      simp only [sub_mul, mul_add, h, one_mul, mul_one]
      abel
    simp only [Prod.fst_mul, Prod.snd_mul, add_mul, mul_add, smul_mul_smul_comm, hp, hm, hpm, hmp]
    module

/-- The closed form of the exponential of an involution. -/
theorem rotation_eq_exp {P : Matrix n n ℂ} (h : P * P = 1) (angle : ℝ) :
    rotation angle P = NormedSpace.exp ((angle * I) • P) := by
  have hc : Continuous (spectral P h) := by
    change Continuous fun c : ℂ × ℂ => (c.1 / 2) • (1 + P) + (c.2 / 2) • (1 - P)
    fun_prop
  have hx : (angle * I) • P = spectral P h (angle * I, -(angle * I)) := by
    change _ = (angle * I / 2) • (1 + P) + (-(angle * I) / 2) • (1 - P)
    module
  have he : spectral P h (NormedSpace.exp (angle * I, -(angle * I))) =
      NormedSpace.exp (spectral P h (angle * I, -(angle * I))) :=
    open scoped Matrix.Norms.Operator in NormedSpace.map_exp (spectral P h) hc _
  rw [hx, ← he]
  change _ = ((NormedSpace.exp (angle * I, -(angle * I))).1 / 2) • (1 + P) +
    ((NormedSpace.exp (angle * I, -(angle * I))).2 / 2) • (1 - P)
  simp only [Prod.fst_exp, Prod.snd_exp, ← Complex.exp_eq_exp_ℂ, rotation]
  rw [← neg_mul, Complex.exp_mul_I, Complex.exp_mul_I, Complex.cos_neg, Complex.sin_neg]
  push_cast
  module

end

/-- The sum of a block on 00 and 11 and a block on 01 and 10, each ordered by the first qubit. -/
def parityBlocks (even odd : Matrix (Fin 2) (Fin 2) ℂ) : Matrix Both Both ℂ :=
  Matrix.of fun i j =>
    if i.1 = i.2 then if j.1 = j.2 then even i.1 j.1 else 0
    else if j.1 = j.2 then 0 else odd i.1 j.1

theorem parityBlocks_mul (A B A' B' : Matrix (Fin 2) (Fin 2) ℂ) :
    parityBlocks A B * parityBlocks A' B' = parityBlocks (A * A') (B * B') := by
  ext ⟨i, j⟩ ⟨k, l⟩
  fin_cases i <;> fin_cases j <;> fin_cases k <;> fin_cases l <;>
    simp [parityBlocks, Matrix.mul_apply, Fintype.sum_prod_type]

theorem smul_parityBlocks (c : ℂ) (A B : Matrix (Fin 2) (Fin 2) ℂ) :
    c • parityBlocks A B = parityBlocks (c • A) (c • B) := by
  ext i j
  simp [parityBlocks]

theorem add_parityBlocks (A B A' B' : Matrix (Fin 2) (Fin 2) ℂ) :
    parityBlocks A B + parityBlocks A' B' = parityBlocks (A + A') (B + B') := by
  ext i j
  simp only [parityBlocks, Matrix.add_apply, Matrix.of_apply]
  split_ifs <;> simp

theorem parityBlocks_one : parityBlocks 1 1 = 1 := by
  ext ⟨i, j⟩ ⟨k, l⟩
  fin_cases i <;> fin_cases j <;> fin_cases k <;> fin_cases l <;> simp [parityBlocks]

theorem star_parityBlocks (A B : Matrix (Fin 2) (Fin 2) ℂ) :
    star (parityBlocks A B) = parityBlocks (star A) (star B) := by
  ext ⟨i, j⟩ ⟨k, l⟩
  fin_cases i <;> fin_cases j <;> fin_cases k <;> fin_cases l <;> simp [parityBlocks]

theorem rotation_parityBlocks (angle : ℝ) (A B : Matrix (Fin 2) (Fin 2) ℂ) :
    rotation angle (parityBlocks A B) = parityBlocks (rotation angle A) (rotation angle B) := by
  simp only [rotation, ← parityBlocks_one, smul_parityBlocks, add_parityBlocks]

namespace Pauli

/-- The product of two Pauli matrices of one kind, one on each qubit. -/
noncomputable def both (P : Matrix (Fin 2) (Fin 2) ℂ) : Matrix Both Both ℂ := P ⊗ₖ P

theorem both_x : both x = parityBlocks x x := by
  ext ⟨i, j⟩ ⟨k, l⟩
  fin_cases i <;> fin_cases j <;> fin_cases k <;> fin_cases l <;> simp [both, x, parityBlocks]

theorem both_y : both y = parityBlocks (-x) x := by
  ext ⟨i, j⟩ ⟨k, l⟩
  fin_cases i <;> fin_cases j <;> fin_cases k <;> fin_cases l <;> simp [both, x, y, parityBlocks]

theorem both_z : both z = parityBlocks 1 (-1) := by
  ext ⟨i, j⟩ ⟨k, l⟩
  fin_cases i <;> fin_cases j <;> fin_cases k <;> fin_cases l <;> simp [both, z, parityBlocks]

theorem both_mul_both {P : Matrix (Fin 2) (Fin 2) ℂ} (h : P * P = 1) : both P * both P = 1 := by
  rw [both, ← Matrix.mul_kronecker_mul, h, Matrix.one_kronecker_one]

theorem both_conj {P : Matrix (Fin 2) (Fin 2) ℂ} (h : star P = P) : star (both P) = both P := by
  rw [both, Matrix.star_eq_conjTranspose, Matrix.conjTranspose_kronecker,
    ← Matrix.star_eq_conjTranspose, h]

theorem commute_x_y : Commute (both x) (both y) := by
  simp [Commute, SemiconjBy, both_x, both_y, parityBlocks_mul]

theorem commute_x_z : Commute (both x) (both z) := by
  simp [Commute, SemiconjBy, both_x, both_z, parityBlocks_mul]

theorem commute_y_z : Commute (both y) (both z) := by
  simp [Commute, SemiconjBy, both_y, both_z, parityBlocks_mul]

end Pauli

/-- The interaction with the given strengths: the product of three rotations that commute. -/
noncomputable def interaction (strengths : Triple ℝ) : Matrix Both Both ℂ :=
  rotation strengths.first (Pauli.both Pauli.x) * rotation strengths.second (Pauli.both Pauli.y) *
    rotation strengths.third (Pauli.both Pauli.z)

theorem interaction_eq_exp (x y z : ℝ) :
    interaction ⟨x, y, z⟩ = NormedSpace.exp (I • ((x : ℂ) • Pauli.both Pauli.x +
      (y : ℂ) • Pauli.both Pauli.y + (z : ℂ) • Pauli.both Pauli.z)) := by
  have hs : I • ((x : ℂ) • Pauli.both Pauli.x + (y : ℂ) • Pauli.both Pauli.y +
      (z : ℂ) • Pauli.both Pauli.z) = (x * I) • Pauli.both Pauli.x + (y * I) • Pauli.both Pauli.y +
        (z * I) • Pauli.both Pauli.z := by module
  have hxy : Commute ((x * I) • Pauli.both Pauli.x) ((y * I) • Pauli.both Pauli.y) :=
    (Pauli.commute_x_y.smul_left _).smul_right _
  have hz : Commute ((x * I) • Pauli.both Pauli.x + (y * I) • Pauli.both Pauli.y)
      ((z * I) • Pauli.both Pauli.z) :=
    ((Pauli.commute_x_z.smul_left _).smul_right _).add_left
      ((Pauli.commute_y_z.smul_left _).smul_right _)
  rw [hs, Matrix.exp_add_of_commute _ _ hz, Matrix.exp_add_of_commute _ _ hxy, interaction,
    rotation_eq_exp (Pauli.both_mul_both Pauli.x_mul_x),
    rotation_eq_exp (Pauli.both_mul_both Pauli.y_mul_y),
    rotation_eq_exp (Pauli.both_mul_both Pauli.z_mul_z)]

theorem interaction_mem_unitary (strengths : Triple ℝ) :
    interaction strengths ∈ Matrix.unitaryGroup Both ℂ :=
  mul_mem (mul_mem
    (rotation_mem_unitary (Pauli.both_mul_both Pauli.x_mul_x) (Pauli.both_conj Pauli.x_conj) _)
    (rotation_mem_unitary (Pauli.both_mul_both Pauli.y_mul_y) (Pauli.both_conj Pauli.y_conj) _))
    (rotation_mem_unitary (Pauli.both_mul_both Pauli.z_mul_z) (Pauli.both_conj Pauli.z_conj) _)

/-- On either block the interaction is a phase and a rotation about the x-axis. -/
theorem interaction_eq_parityBlocks (x y z : ℝ) :
    interaction ⟨x, y, z⟩ = parityBlocks (turn z • rotation (x - y) Pauli.x)
      (turn (-z) • rotation (x + y) Pauli.x) := by
  simp only [interaction, Pauli.both_x, Pauli.both_y, Pauli.both_z, rotation_parityBlocks,
    parityBlocks_mul, rotation_neg, rotation_one, rotation_mul Pauli.x_mul_x, mul_smul_comm,
    mul_one,
    sub_eq_add_neg]

end QuantumOps
