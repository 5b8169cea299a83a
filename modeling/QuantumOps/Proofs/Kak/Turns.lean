import Mathlib
import QuantumOps.Proofs.Kak.Local

/-! Rotations about the z-axis on both qubits. Between two of them an interaction keeps its blocks,
which are then turned entry by entry. -/
namespace QuantumOps
open Complex (I)
open Scalar (number)
open Real (cos sin)
open scoped Kronecker

/-- The diagonal matrix of two opposite phases. -/
noncomputable def zTurn (angle : ℝ) : Matrix (Fin 2) (Fin 2) ℂ :=
  !![turn (-angle), 0; 0, turn angle]

theorem zTurn_mul (a b : ℝ) : zTurn a * zTurn b = zTurn (a + b) := by
  simp [zTurn, ← turn_add, add_comm]

@[simp] theorem zTurn_zero : zTurn 0 = 1 := by simp [zTurn, Matrix.one_fin_two]

theorem star_zTurn (a : ℝ) : star (zTurn a) = zTurn (-a) := by
  ext i j
  fin_cases i <;> fin_cases j <;> simp [zTurn, turn_neg]

theorem rotateZ_toMatrix (a : ℝ) : (SingleGate.rotateZ a).matrix.toMatrix = zTurn (a / 2) := by
  ext i j
  fin_cases i <;> fin_cases j <;>
    simp [Pair.toMatrix, Pair.get, SingleGate.matrix, zTurn, turn_eq]

theorem zTurn_control (a : ℝ) : zTurn a ⊗ₖ 1 = parityBlocks (zTurn a) (zTurn a) := by
  ext ⟨i, j⟩ ⟨k, l⟩
  fin_cases i <;> fin_cases j <;> fin_cases k <;> fin_cases l <;> simp [zTurn, parityBlocks]

theorem zTurn_target (a : ℝ) : 1 ⊗ₖ zTurn a = parityBlocks (zTurn a) (zTurn (-a)) := by
  ext ⟨i, j⟩ ⟨k, l⟩
  fin_cases i <;> fin_cases j <;> fin_cases k <;> fin_cases l <;> simp [zTurn, parityBlocks]

/-- Rotations about the z-axis, by one angle on the control and by another on the target. -/
noncomputable def zTurns (a b : ℝ) : Matrix Both Both ℂ :=
  parityBlocks (zTurn ((a + b) / 2)) (zTurn ((a - b) / 2))

@[simp] theorem zTurns_zero : zTurns 0 0 = 1 := by simp [zTurns, parityBlocks_one]

theorem zTurns_mul (a b c d : ℝ) : zTurns a b * zTurns c d = zTurns (a + c) (b + d) := by
  simp only [zTurns, parityBlocks_mul, zTurn_mul]
  congr 2 <;> ring

theorem star_zTurns (a b : ℝ) : star (zTurns a b) = zTurns (-a) (-b) := by
  rw [zTurns, star_parityBlocks, star_zTurn, star_zTurn, zTurns]
  congr 2 <;> ring

theorem zTurns_mem_unitary (a b : ℝ) : zTurns a b ∈ Matrix.unitaryGroup Both ℂ := by
  rw [Matrix.mem_unitaryGroup_iff, star_zTurns, zTurns_mul]
  simp

section
variable {control target : ℕ}

theorem localMatrix?_rotateZ_control (a : ℝ) :
    (Operation.record (.singleQubit (.rotateZ (number a)) control)).localMatrix? control target =
      some (zTurns a 0) := by
  refine (Operation.localMatrix?_control (g := .rotateZ a) rfl).trans ?_
  simp [rotateZ_toMatrix, zTurn_control, zTurns]

theorem localMatrix?_rotateZ_target (h : control ≠ target) (a : ℝ) :
    (Operation.record (.singleQubit (.rotateZ (number a)) target)).localMatrix? control target =
      some (zTurns 0 a) := by
  refine (Operation.localMatrix?_target (g := .rotateZ a) rfl h).trans ?_
  rw [rotateZ_toMatrix, zTurn_target, zTurns]
  congr 3 <;> ring

theorem optionalMatrix?_none : Circuit.optionalMatrix? control target none = some (zTurns 0 0) := by
  rw [zTurns_zero]
  rfl

theorem optionalMatrix?_control (a : ℝ) :
    Circuit.optionalMatrix? control target (TwoGate.rotations [(.rotateZ (number a), control)]) =
      some (zTurns a 0) := by
  simp [TwoGate.rotations, Circuit.optionalMatrix?, Circuit.localMatrix?,
    localMatrix?_rotateZ_control]

theorem optionalMatrix?_target (h : control ≠ target) (b : ℝ) :
    Circuit.optionalMatrix? control target (TwoGate.rotations [(.rotateZ (number b), target)]) =
      some (zTurns 0 b) := by
  simp [TwoGate.rotations, Circuit.optionalMatrix?, Circuit.localMatrix?,
    localMatrix?_rotateZ_target h]

theorem optionalMatrix?_both (h : control ≠ target) (a b : ℝ) :
    Circuit.optionalMatrix? control target
      (TwoGate.rotations [(.rotateZ (number a), control), (.rotateZ (number b), target)]) =
        some (zTurns a b) := by
  simp [TwoGate.rotations, Circuit.optionalMatrix?, Circuit.localMatrix?,
    localMatrix?_rotateZ_control, localMatrix?_rotateZ_target h, zTurns_mul]

end

/-- A rotation about the x-axis each entry of which has a phase of its own. -/
noncomputable def turnedBlock (angle a b c d : ℝ) : Matrix (Fin 2) (Fin 2) ℂ :=
  !![turn a * cos angle, turn b * (sin angle * I);
    turn c * (sin angle * I), turn d * cos angle]

theorem turnedBlock_eq (w s t angle : ℝ) :
    turn w • (zTurn s * rotation angle Pauli.x * zTurn t) =
      turnedBlock angle (w - s - t) (w - s + t) (w + s - t) (w + s + t) := by
  simp only [sub_eq_add_neg, turn_add, rotation, Pauli.x, zTurn, turnedBlock, Matrix.one_fin_two]
  ext i j
  fin_cases i <;> fin_cases j <;> simp <;> ring

/-- Between rotations about the z-axis the interaction keeps its two blocks. -/
theorem zTurns_interaction (w x y z a b c d : ℝ) :
    turn w • (zTurns a b * interaction ⟨x, y, z⟩ * zTurns c d) = parityBlocks
      (turnedBlock (x - y) (w + z - (a + b) / 2 - (c + d) / 2) (w + z - (a + b) / 2 + (c + d) / 2)
        (w + z + (a + b) / 2 - (c + d) / 2) (w + z + (a + b) / 2 + (c + d) / 2))
      (turnedBlock (x + y) (w - z - (a - b) / 2 - (c - d) / 2) (w - z - (a - b) / 2 + (c - d) / 2)
        (w - z + (a - b) / 2 - (c - d) / 2) (w - z + (a - b) / 2 + (c - d) / 2)) := by
  rw [← turnedBlock_eq (w + z), ← turnedBlock_eq (w - z)]
  simp only [zTurns, interaction_eq_parityBlocks, parityBlocks_mul, smul_parityBlocks,
    mul_smul_comm, smul_mul_assoc, smul_smul, ← turn_add, sub_eq_add_neg w]

section
variable {e₁ e₂ e₃ e₄ o₁ o₂ o₃ o₄ : Amplitude ℝ} {s a b c d t a' b' c' d' : ℝ}

/-- A matrix without entries between 00 or 11 and 01 or 10. -/
theorem toMatrix_eq_parityBlocks :
    Quad.toMatrix ⟨⟨e₁, 0, 0, e₂⟩, ⟨0, o₁, o₂, 0⟩, ⟨0, o₃, o₄, 0⟩, ⟨e₃, 0, 0, e₄⟩⟩ = parityBlocks
      !![e₁.toComplex, e₂.toComplex; e₃.toComplex, e₄.toComplex]
      !![o₁.toComplex, o₂.toComplex; o₃.toComplex, o₄.toComplex] := by
  ext ⟨i, j⟩ ⟨k, l⟩
  fin_cases i <;> fin_cases j <;> fin_cases k <;> fin_cases l <;>
    simp [Quad.toMatrix, Quad.get, parityBlocks]

theorem toMatrix_eq_turnedBlocks
    (h₁ : e₁.re = cos a * cos s ∧ e₁.im = sin a * cos s)
    (h₂ : e₂.re = -sin b * sin s ∧ e₂.im = cos b * sin s)
    (h₃ : e₃.re = -sin c * sin s ∧ e₃.im = cos c * sin s)
    (h₄ : e₄.re = cos d * cos s ∧ e₄.im = sin d * cos s)
    (h₅ : o₁.re = cos a' * cos t ∧ o₁.im = sin a' * cos t)
    (h₆ : o₂.re = -sin b' * sin t ∧ o₂.im = cos b' * sin t)
    (h₇ : o₃.re = -sin c' * sin t ∧ o₃.im = cos c' * sin t)
    (h₈ : o₄.re = cos d' * cos t ∧ o₄.im = sin d' * cos t) :
    Quad.toMatrix ⟨⟨e₁, 0, 0, e₂⟩, ⟨0, o₁, o₂, 0⟩, ⟨0, o₃, o₄, 0⟩, ⟨e₃, 0, 0, e₄⟩⟩ =
      parityBlocks (turnedBlock s a b c d) (turnedBlock t a' b' c' d') := by
  have hcos : ∀ {e : Amplitude ℝ} {x y : ℝ}, e.re = cos x * cos y ∧ e.im = sin x * cos y →
      e.toComplex = turn x * cos y := fun h =>
    Complex.ext (h.1.trans (by simp [-Complex.ofReal_cos]))
      (h.2.trans (by simp [-Complex.ofReal_cos]))
  have hsin : ∀ {e : Amplitude ℝ} {x y : ℝ}, e.re = -sin x * sin y ∧ e.im = cos x * sin y →
      e.toComplex = turn x * (sin y * I) := fun h =>
    Complex.ext (h.1.trans (by simp [-Complex.ofReal_sin]))
      (h.2.trans (by simp [-Complex.ofReal_sin]))
  rw [toMatrix_eq_parityBlocks, hcos h₁, hsin h₂, hsin h₃, hcos h₄, hcos h₅, hsin h₆, hsin h₇,
    hcos h₈, turnedBlock, turnedBlock]

end

end QuantumOps
