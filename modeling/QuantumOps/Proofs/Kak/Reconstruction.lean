import Mathlib
import QuantumOps.Proofs.Kak.Turns
import QuantumOps.Proofs.Kak.Controlled

/-! A gate on two qubits is rebuilt from its decomposition: up to the global phase its matrix is the
interaction, after the circuit before it and before the circuit after it. -/
namespace QuantumOps
open Complex (I)
open Scalar (number)
open scoped Kronecker

/-- The decomposition has the matrix: after a phase, the interaction between two unitary matrices
that act on one qubit at a time. -/
def Kak.Decomposes (control target : ℕ) (k : Kak ℝ) (U : Matrix Both Both ℂ) : Prop :=
  ∃ (w : ℝ) (strengths : Triple ℝ) (before after : Matrix Both Both ℂ),
    k.globalPhase = number w ∧ k.strengths = strengths.map number ∧
    Circuit.optionalMatrix? control target k.before = some before ∧
    Circuit.optionalMatrix? control target k.after = some after ∧
    before ∈ Matrix.unitaryGroup Both ℂ ∧ after ∈ Matrix.unitaryGroup Both ℂ ∧
    U = turn w • (after * interaction strengths * before)

namespace TwoGate
open Circuit (optionalMatrix?)

/-- The gate on control and target has the matrix that its decomposition rebuilds. -/
def Rebuilt (control target : ℕ) (g : TwoGate ℝ) : Prop :=
  ((g.map number).kak control target).Decomposes control target g.matrix.toMatrix

theorem Rebuilt.of_turns {control target : ℕ} {g : TwoGate ℝ} (w x y z a b c d : ℝ)
    (hw : ((g.map number).kak control target).globalPhase = number w)
    (hs : ((g.map number).kak control target).strengths = ⟨number x, number y, number z⟩)
    (hb : optionalMatrix? control target ((g.map number).kak control target).before =
      some (zTurns a b))
    (ha : optionalMatrix? control target ((g.map number).kak control target).after =
      some (zTurns c d))
    (hU : g.matrix.toMatrix = turn w • (zTurns c d * interaction ⟨x, y, z⟩ * zTurns a b)) :
    g.Rebuilt control target :=
  ⟨w, ⟨x, y, z⟩, _, _, hw, hs, hb, ha, zTurns_mem_unitary a b, zTurns_mem_unitary c d, hU⟩

open Real (cos sin)
open scoped Real

section
variable {control target : ℕ}

theorem rebuilt_swap : swap.Rebuilt control target := by
  have hm : swap.matrix.toMatrix = parityBlocks
      (turnedBlock 0 0 0 0 0)
      (turnedBlock (π / 2) (-(π / 2)) (-(π / 2)) (-(π / 2)) (-(π / 2))) := by
    rw [matrix, TwoGate.inner]
    apply toMatrix_eq_turnedBlocks <;> constructor <;> simp
  refine .of_turns (-(π / 4)) (π / 4) (π / 4) (π / 4) 0 0 0 0
    (by simp [map, kak]) (by simp [map, kak]) optionalMatrix?_none optionalMatrix?_none ?_
  rw [hm, zTurns_interaction]
  congr 2 <;> ring

theorem rebuilt_iSwap : iSwap.Rebuilt control target := by
  have hm : iSwap.matrix.toMatrix = parityBlocks
      (turnedBlock 0 0 0 0 0) (turnedBlock (π / 2) 0 0 0 0) := by
    rw [matrix, TwoGate.inner]
    apply toMatrix_eq_turnedBlocks <;> constructor <;> simp
  refine .of_turns 0 (π / 4) (π / 4) 0 0 0 0 0
    (by simp [map, kak]) (by simp [map, kak]) optionalMatrix?_none optionalMatrix?_none ?_
  rw [hm, zTurns_interaction]
  congr 2 <;> ring

theorem rebuilt_fSwap (h : control ≠ target) : fSwap.Rebuilt control target := by
  have hm : fSwap.matrix.toMatrix = parityBlocks
      (turnedBlock 0 0 (-π) 0 (-π))
      (turnedBlock (π / 2) (-(π / 2)) (-(π / 2)) (-(π / 2)) (-(π / 2))) := by
    rw [matrix, TwoGate.inner]
    apply toMatrix_eq_turnedBlocks <;> constructor <;> simp
  refine .of_turns (-(π / 2)) (π / 4) (π / 4) 0 (-(π / 2)) (-(π / 2)) 0 0
    (by simp [map, kak]) (by simp [map, kak]) (optionalMatrix?_both h _ _) optionalMatrix?_none ?_
  rw [hm, zTurns_interaction]
  congr 2 <;> ring

theorem rebuilt_sqrtISwap : sqrtISwap.Rebuilt control target := by
  have hm : sqrtISwap.matrix.toMatrix = parityBlocks
      (turnedBlock 0 0 0 0 0) (turnedBlock (π / 4) 0 0 0 0) := by
    rw [matrix, TwoGate.inner]
    apply toMatrix_eq_turnedBlocks <;> constructor <;> simp
  refine .of_turns 0 (π / 8) (π / 8) 0 0 0 0 0
    (by simp [map, kak]) (by simp [map, kak]) optionalMatrix?_none optionalMatrix?_none ?_
  rw [hm, zTurns_interaction]
  congr 2 <;> ring

theorem rebuilt_invSqrtISwap : invSqrtISwap.Rebuilt control target := by
  have hm : invSqrtISwap.matrix.toMatrix = parityBlocks
      (turnedBlock 0 0 0 0 0) (turnedBlock (-(π / 4)) 0 0 0 0) := by
    rw [matrix, TwoGate.inner]
    apply toMatrix_eq_turnedBlocks <;> constructor <;> simp
  refine .of_turns 0 (-(π / 8)) (-(π / 8)) 0 0 0 0 0
    (by simp [map, kak]) (by simp [map, kak]) optionalMatrix?_none optionalMatrix?_none ?_
  rw [hm, zTurns_interaction]
  congr 2 <;> ring

theorem rebuilt_xy (t : ℝ) : (xy t).Rebuilt control target := by
  have hm : (xy t).matrix.toMatrix = parityBlocks
      (turnedBlock 0 0 0 0 0) (turnedBlock (t / 2) 0 0 0 0) := by
    rw [matrix, TwoGate.inner]
    apply toMatrix_eq_turnedBlocks <;> constructor <;> simp
  refine .of_turns 0 (t / 4) (t / 4) 0 0 0 0 0
    (by simp [map, kak]) (by simp [map, kak]) optionalMatrix?_none optionalMatrix?_none ?_
  rw [hm, zTurns_interaction]
  congr 2 <;> ring

theorem rebuilt_controlledPhaseShift (h : control ≠ target) (t : ℝ) :
    (controlledPhaseShift t).Rebuilt control target := by
  have hm : (controlledPhaseShift t).matrix.toMatrix = parityBlocks
      (turnedBlock 0 0 t 0 t) (turnedBlock 0 0 0 0 0) := by
    rw [matrix, diagonal]
    apply toMatrix_eq_turnedBlocks <;> constructor <;> simp
  refine .of_turns (t / 4) 0 0 (t / 4) (t / 2) (t / 2) 0 0
    (by simp [map, kak]) (by simp [map, kak]) (optionalMatrix?_both h _ _) optionalMatrix?_none ?_
  rw [hm, zTurns_interaction]
  congr 2 <;> ring

theorem rebuilt_controlledPauliZ (h : control ≠ target) :
    controlledPauliZ.Rebuilt control target := by
  have hm : controlledPauliZ.matrix.toMatrix = parityBlocks
      (turnedBlock 0 0 π 0 π) (turnedBlock 0 0 0 0 0) := by
    rw [matrix, diagonal]
    apply toMatrix_eq_turnedBlocks <;> constructor <;> simp
  refine .of_turns (π / 4) 0 0 (π / 4) (π / 2) (π / 2) 0 0
    (by simp [map, kak]) (by simp [map, kak]) (optionalMatrix?_both h _ _) optionalMatrix?_none ?_
  rw [hm, zTurns_interaction]
  congr 2 <;> ring

theorem rebuilt_molmerSorensenXX : molmerSorensenXX.Rebuilt control target := by
  have hm : molmerSorensenXX.matrix.toMatrix = parityBlocks
      (turnedBlock (-(π / 4)) 0 0 0 0) (turnedBlock (-(π / 4)) 0 0 0 0) := by
    rw [matrix, crossed]
    apply toMatrix_eq_turnedBlocks <;> constructor <;> simp
  refine .of_turns 0 (-(π / 4)) 0 0 0 0 0 0
    (by simp [map, kak]) (by simp [map, kak]) optionalMatrix?_none optionalMatrix?_none ?_
  rw [hm, zTurns_interaction]
  congr 2 <;> ring

theorem rebuilt_variableMSXX (t : ℝ) : (variableMSXX t).Rebuilt control target := by
  have hm : (variableMSXX t).matrix.toMatrix = parityBlocks
      (turnedBlock (-(t / 2)) 0 0 0 0) (turnedBlock (-(t / 2)) 0 0 0 0) := by
    rw [matrix, crossed]
    apply toMatrix_eq_turnedBlocks <;> constructor <;> simp
  refine .of_turns 0 (t * -(1 / 2)) 0 0 0 0 0 0
    (by simp [map, kak]) (by simp [map, kak]) optionalMatrix?_none optionalMatrix?_none ?_
  rw [hm, zTurns_interaction]
  congr 2 <;> ring

theorem rebuilt_givensRotation (h : control ≠ target) (t p : ℝ) :
    (givensRotation t p).Rebuilt control target := by
  have hm : (givensRotation t p).matrix.toMatrix = parityBlocks
      (turnedBlock 0 0 (p + π / 2) (-(π / 2)) p) (turnedBlock t p (-(π / 2)) (p + π / 2) 0) := by
    rw [matrix, TwoGate.inner]
    apply toMatrix_eq_turnedBlocks <;> constructor <;>
      simp [Real.sin_add_pi_div_two, Real.cos_add_pi_div_two]
  refine .of_turns (p / 2) (t / 2) (t / 2) 0 0 (p + π / 2) 0 (-(π / 2))
    (by simp [map, kak]) (by simp [map, kak])
    (optionalMatrix?_target h _) (optionalMatrix?_target h _) ?_
  rw [hm, zTurns_interaction]
  congr 2 <;> ring

theorem rebuilt_givensRotationLittleEndian (t p : ℝ) :
    (givensRotationLittleEndian t p).Rebuilt control target := by
  have hm : (givensRotationLittleEndian t p).matrix.toMatrix = parityBlocks
      (turnedBlock 0 0 (-(π / 2)) (p + π / 2) p) (turnedBlock t 0 (-(π / 2)) (p + π / 2) p) := by
    rw [matrix, TwoGate.inner]
    apply toMatrix_eq_turnedBlocks <;> constructor <;>
      simp [Real.sin_add_pi_div_two, Real.cos_add_pi_div_two]
  refine .of_turns (p / 2) (t / 2) (t / 2) 0 (-(π / 2)) 0 (p + π / 2) 0
    (by simp [map, kak]) (by simp [map, kak])
    (optionalMatrix?_control _) (optionalMatrix?_control _) ?_
  rw [hm, zTurns_interaction]
  congr 2 <;> ring

theorem rebuilt_qsim (x y z : ℝ) : (qsim x y z).Rebuilt control target := by
  have hm : (qsim x y z).matrix.toMatrix = parityBlocks
      (turnedBlock (y - x) (-z) (-z) (-z) (-z))
      (turnedBlock (π / 2 - (x + y)) (z - π / 2) (z - π / 2) (z - π / 2) (z - π / 2)) := by
    rw [matrix, crossed]
    apply toMatrix_eq_turnedBlocks <;> constructor <;>
      simp [spinTerms, Real.cos_add, Real.sin_add, Real.cos_sub, Real.sin_sub] <;> ring
  refine .of_turns (-(π / 4)) (-x + π / 4) (-y + π / 4) (-z + π / 4) 0 0 0 0
    (by simp [map, kak]) (by simp [map, kak]) optionalMatrix?_none optionalMatrix?_none ?_
  rw [hm, zTurns_interaction]
  congr 2 <;> ring

theorem rebuilt_fsim (h : control ≠ target) (t u d : ℝ) : (fsim t u d).Rebuilt control target := by
  have hm : (fsim t u d).matrix.toMatrix = parityBlocks
      (turnedBlock d 0 0 (-u - π) (-u - π))
      (turnedBlock (π / 2 - t) (-(π / 2)) (-(π / 2)) (-(π / 2)) (-(π / 2))) := by
    rw [matrix]
    apply toMatrix_eq_turnedBlocks <;> constructor <;>
      simp [Real.cos_pi_div_two_sub, Real.sin_pi_div_two_sub] <;> ring
  refine .of_turns (u / (-4) - π / 2) (t / (-2) + d / 2 + π / 4) (t / (-2) - d / 2 + π / 4)
    (u / (-4)) 0 0 (u / (-2) - π / 2) (u / (-2) - π / 2)
    (by simp [map, kak]) (by simp [map, kak]) optionalMatrix?_none (optionalMatrix?_both h _ _) ?_
  rw [hm, zTurns_interaction]
  congr 2 <;> ring

theorem rebuilt_spinInteraction (x y z : ℝ) : (spinInteraction x y z).Rebuilt control target := by
  have hm : (spinInteraction x y z).matrix.toMatrix = parityBlocks
      (turnedBlock (y - x) (-z) (-z) (-z) (-z)) (turnedBlock (-x - y) z z z z) := by
    rw [matrix, crossed]
    apply toMatrix_eq_turnedBlocks <;> constructor <;>
      simp [spinTerms, Real.cos_add, Real.sin_add, Real.cos_sub, Real.sin_sub] <;> ring
  refine .of_turns 0 (-x) (-y) (-z) 0 0 0 0
    (by simp [map, kak]) (by simp [map, kak]) optionalMatrix?_none optionalMatrix?_none ?_
  rw [hm, zTurns_interaction]
  congr 2 <;> ring

theorem rebuilt_bogoliubov (h : control ≠ target) (a b : ℝ) :
    (bogoliubov a b).Rebuilt control target := by
  have hm : (bogoliubov a b).matrix.toMatrix = parityBlocks
      (turnedBlock (√(a * a + b * b)) 0 (Complex.arg ⟨a, b⟩) (-Complex.arg ⟨a, b⟩) 0)
      (turnedBlock 0 0 (-Complex.arg ⟨a, b⟩) (Complex.arg ⟨a, b⟩) 0) := by
    rw [matrix]
    apply toMatrix_eq_turnedBlocks <;> constructor <;> simp [Amplitude.abs, Amplitude.arg] <;> ring
  refine .of_turns 0 (√(a * a + b * b) / 2) (√(a * a + b * b) / (-2)) 0
    0 (Complex.arg ⟨a, b⟩) 0 (-Complex.arg ⟨a, b⟩)
    (by simp [map, kak, ComplexScalar.norm, ComplexScalar.arg])
    (by simp [map, kak, ComplexScalar.norm, ComplexScalar.arg])
    (optionalMatrix?_target h _) (optionalMatrix?_target h _) ?_
  rw [hm, zTurns_interaction]
  congr 2 <;> ring

theorem rebuilt_pmInteraction (t : ℝ) : (pmInteraction t).Rebuilt control target := by
  have hm : (pmInteraction t).matrix.toMatrix = parityBlocks
      (turnedBlock 0 0 0 0 0) (turnedBlock (-t) 0 0 0 0) := by
    rw [matrix, TwoGate.inner]
    apply toMatrix_eq_turnedBlocks <;> constructor <;> simp
  refine .of_turns 0 (t / (-2)) (t / (-2)) 0 0 0 0 0
    (by simp [map, kak]) (by simp [map, kak]) optionalMatrix?_none optionalMatrix?_none ?_
  rw [hm, zTurns_interaction]
  congr 2 <;> ring

theorem rebuilt_complexPMInteraction (h : control ≠ target) (a b : ℝ) :
    (complexPMInteraction a b).Rebuilt control target := by
  have hm : (complexPMInteraction a b).matrix.toMatrix = parityBlocks
      (turnedBlock 0 0 (Complex.arg ⟨a, b⟩) (-Complex.arg ⟨a, b⟩) 0)
      (turnedBlock (-√(a * a + b * b)) 0 (-Complex.arg ⟨a, b⟩) (Complex.arg ⟨a, b⟩)
        0) := by
    rw [matrix, TwoGate.inner]
    apply toMatrix_eq_turnedBlocks <;> constructor <;> simp [Amplitude.abs, Amplitude.arg] <;> ring
  refine .of_turns 0 (√(a * a + b * b) / (-2)) (√(a * a + b * b) / (-2)) 0
    0 (Complex.arg ⟨a, b⟩) 0 (-Complex.arg ⟨a, b⟩)
    (by simp [map, kak, ComplexScalar.norm, ComplexScalar.arg])
    (by simp [map, kak, ComplexScalar.norm, ComplexScalar.arg])
    (optionalMatrix?_target h _) (optionalMatrix?_target h _) ?_
  rw [hm, zTurns_interaction]
  congr 2 <;> ring

theorem rebuilt_phaseShiftedControlledZ (h : control ≠ target) (p : ℝ) :
    (phaseShiftedControlledZ p).Rebuilt control target := by
  have hm : (phaseShiftedControlledZ p).matrix.toMatrix = parityBlocks
      (turnedBlock 0 0 π (2 * p) (2 * p + π)) (turnedBlock 0 p p p p) := by
    rw [matrix, diagonal]
    apply toMatrix_eq_turnedBlocks <;> constructor <;> simp
  refine .of_turns (p + π / 4) 0 0 (π / 4) (π / 2) (π / 2) p p
    (by simp [map, kak]) (by simp [map, kak])
    (optionalMatrix?_both h _ _) (optionalMatrix?_both h _ _) ?_
  rw [hm, zTurns_interaction]
  congr 2 <;> ring

theorem rebuilt_phaseShiftedControlledPhase (h : control ≠ target) (t p : ℝ) :
    (phaseShiftedControlledPhase t p).Rebuilt control target := by
  have hm : (phaseShiftedControlledPhase t p).matrix.toMatrix = parityBlocks
      (turnedBlock 0 0 t (2 * p) (2 * p + t)) (turnedBlock 0 p p p p) := by
    rw [matrix, diagonal]
    apply toMatrix_eq_turnedBlocks <;> constructor <;> simp
  refine .of_turns (t / 4 + p) 0 0 (t / 4) (t / 2) (t / 2) p p
    (by simp [map, kak]) (by simp [map, kak])
    (optionalMatrix?_both h _ _) (optionalMatrix?_both h _ _) ?_
  rw [hm, zTurns_interaction]
  congr 2 <;> ring

/-- The controlled involution, from both of the factors that its rotation is a product of. -/
theorem controlled_kronecker {P : Matrix (Fin 2) (Fin 2) ℂ} (h : P * P = 1) :
    turn (π / 4) • (rotation (π / 4) (Pauli.z ⊗ₖ P) * rotation (-(π / 4)) (Pauli.z ⊗ₖ 1) *
      rotation (-(π / 4)) (1 ⊗ₖ P)) = (1 / 2 : ℂ) • (1 + Pauli.z ⊗ₖ 1 + 1 ⊗ₖ P - Pauli.z ⊗ₖ P) := by
  have hc := controlled_eq (control_involutive Pauli.z_mul_z) (target_involutive h)
    (control_mul_target.trans target_mul_control.symm)
  rwa [control_mul_target] at hc

theorem cnot_toMatrix : (cnot : TwoGate ℝ).matrix.toMatrix =
    (1 / 2 : ℂ) • (1 + Pauli.z ⊗ₖ 1 + 1 ⊗ₖ Pauli.x - Pauli.z ⊗ₖ Pauli.x) := by
  ext ⟨i, j⟩ ⟨k, l⟩
  fin_cases i <;> fin_cases j <;> fin_cases k <;> fin_cases l <;>
    simp [matrix, Quad.toMatrix, Quad.get, Pauli.x, Pauli.z] <;> norm_num

theorem controlledPauliY_toMatrix : (controlledPauliY : TwoGate ℝ).matrix.toMatrix =
    (1 / 2 : ℂ) • (1 + Pauli.z ⊗ₖ 1 + 1 ⊗ₖ Pauli.y - Pauli.z ⊗ₖ Pauli.y) := by
  ext ⟨i, j⟩ ⟨k, l⟩
  fin_cases i <;> fin_cases j <;> fin_cases k <;> fin_cases l <;>
    simp [matrix, Quad.toMatrix, Quad.get, Pauli.y, Pauli.z] <;> ring

theorem localMatrix?_halfPi_z :
    (Operation.record (.singleQubit (.rotateZ (number (π / 2))) control)).localMatrix?
      control target = some (rotation (-(π / 4)) (Pauli.z ⊗ₖ 1)) :=
  localMatrix?_rotation_control rfl (rotateZ_eq_rotation _) (by ring)

theorem localMatrix?_halfPi_x (h : control ≠ target) :
    (Operation.record (.singleQubit (.rotateX (number (π / 2))) target)).localMatrix?
      control target = some (rotation (-(π / 4)) (1 ⊗ₖ Pauli.x)) :=
  localMatrix?_rotation_target h rfl (rotateX_toMatrix _) (by ring)

theorem cnot_before (h : control ≠ target) :
    optionalMatrix? control target ((cnot.map number).kak control target).before =
      some (rotation (-(π / 4)) (1 ⊗ₖ Pauli.x) * rotation (-(π / 4)) (Pauli.y ⊗ₖ 1) *
        rotation (-(π / 4)) (Pauli.z ⊗ₖ 1)) := by
  have hy : (Operation.record (.singleQubit (.rotateY (number (π / 2))) control)).localMatrix?
      control target = some (rotation (-(π / 4)) (Pauli.y ⊗ₖ 1)) :=
    localMatrix?_rotation_control rfl (rotateY_toMatrix _) (by ring)
  simp [map, kak, rotations, optionalMatrix?, Circuit.localMatrix?, localMatrix?_halfPi_z,
    localMatrix?_halfPi_x h, hy]

theorem cnot_after :
    optionalMatrix? control target ((cnot.map number).kak control target).after =
      some (rotation (π / 4) (Pauli.y ⊗ₖ 1)) := by
  have hy : (Operation.record (.singleQubit (.rotateY (number (-(π / 2)))) control)).localMatrix?
      control target = some (rotation (π / 4) (Pauli.y ⊗ₖ 1)) :=
    localMatrix?_rotation_control rfl (rotateY_toMatrix _) (by ring)
  simp [map, kak, rotations, optionalMatrix?, Circuit.localMatrix?, hy]

/-- The rotations on the control take the interaction from the axes xx to zx. -/
theorem rebuilt_cnot (h : control ≠ target) : cnot.Rebuilt control target := by
  have hconj : rotation (π / 4) (Pauli.y ⊗ₖ 1) * rotation (π / 4) (Pauli.x ⊗ₖ Pauli.x) *
      rotation (-(π / 4)) (Pauli.y ⊗ₖ 1) = rotation (π / 4) (Pauli.z ⊗ₖ Pauli.x) := by
    rw [rotation_quarter_conj (control_involutive Pauli.y_mul_y)]
    · simp [← Matrix.mul_kronecker_mul, Pauli.y_mul_x, Matrix.smul_kronecker, smul_smul, -neg_smul]
    · simp only [← Matrix.mul_kronecker_mul, Pauli.x_mul_y, Pauli.y_mul_x, Matrix.smul_kronecker,
        one_mul, mul_one]
      module
  refine ⟨π / 4, ⟨π / 4, 0, 0⟩, _, _, by simp [map, kak], by simp [map, kak, Triple.map],
    cnot_before h, cnot_after, ?_, ?_, ?_⟩
  · exact mul_mem (mul_mem (rotation_target_mem_unitary Pauli.x_mul_x Pauli.x_conj _)
      (rotation_control_mem_unitary Pauli.y_mul_y Pauli.y_conj _))
      (rotation_control_mem_unitary Pauli.z_mul_z Pauli.z_conj _)
  · exact rotation_control_mem_unitary Pauli.y_mul_y Pauli.y_conj _
  · have hxy := rotation_commute (target_mul_control.trans control_mul_target.symm :
      (1 ⊗ₖ Pauli.x) * (Pauli.y ⊗ₖ 1) = (Pauli.y ⊗ₖ 1) * (1 ⊗ₖ Pauli.x)) (-(π / 4)) (-(π / 4))
    have hxz := rotation_commute (target_mul_control.trans control_mul_target.symm :
      (1 ⊗ₖ Pauli.x) * (Pauli.z ⊗ₖ 1) = (Pauli.z ⊗ₖ 1) * (1 ⊗ₖ Pauli.x)) (-(π / 4)) (-(π / 4))
    have hi : interaction ⟨π / 4, 0, 0⟩ = rotation (π / 4) (Pauli.x ⊗ₖ Pauli.x) := by
      simp [interaction, Pauli.both]
    rw [cnot_toMatrix, ← controlled_kronecker Pauli.x_mul_x, ← hconj, hi, hxy]
    simp only [mul_assoc, hxz]

theorem controlledPauliY_before (h : control ≠ target) :
    optionalMatrix? control target ((controlledPauliY.map number).kak control target).before =
      some (rotation (-(π / 4)) (1 ⊗ₖ Pauli.x) * rotation (-(π / 4)) (1 ⊗ₖ Pauli.y) *
        rotation (-(π / 4)) (Pauli.z ⊗ₖ 1)) := by
  have hy : (Operation.record (.singleQubit (.rotateY (number (π / 2))) target)).localMatrix?
      control target = some (rotation (-(π / 4)) (1 ⊗ₖ Pauli.y)) :=
    localMatrix?_rotation_target h rfl (rotateY_toMatrix _) (by ring)
  simp [map, kak, rotations, optionalMatrix?, Circuit.localMatrix?, localMatrix?_halfPi_z,
    localMatrix?_halfPi_x h, hy]

theorem controlledPauliY_after (h : control ≠ target) :
    optionalMatrix? control target ((controlledPauliY.map number).kak control target).after =
      some (rotation (π / 4) (1 ⊗ₖ Pauli.x)) := by
  have hx : (Operation.record (.singleQubit (.rotateX (number (-(π / 2)))) target)).localMatrix?
      control target = some (rotation (π / 4) (1 ⊗ₖ Pauli.x)) :=
    localMatrix?_rotation_target h rfl (rotateX_toMatrix _) (by ring)
  simp [map, kak, rotations, optionalMatrix?, Circuit.localMatrix?, hx]

/-- The rotations on the target take the interaction from the axes zz to zy. -/
theorem rebuilt_controlledPauliY (h : control ≠ target) :
    controlledPauliY.Rebuilt control target := by
  have hconj : rotation (π / 4) (1 ⊗ₖ Pauli.x) * rotation (π / 4) (Pauli.z ⊗ₖ Pauli.z) *
      rotation (-(π / 4)) (1 ⊗ₖ Pauli.x) = rotation (π / 4) (Pauli.z ⊗ₖ Pauli.y) := by
    rw [rotation_quarter_conj (target_involutive Pauli.x_mul_x)]
    · simp [← Matrix.mul_kronecker_mul, Pauli.x_mul_z, Matrix.kronecker_smul, smul_smul, -neg_smul]
    · simp only [← Matrix.mul_kronecker_mul, Pauli.z_mul_x, Pauli.x_mul_z, Matrix.kronecker_smul,
        one_mul, mul_one]
      module
  refine ⟨π / 4, ⟨0, 0, π / 4⟩, _, _, by simp [map, kak], by simp [map, kak, Triple.map],
    controlledPauliY_before h, controlledPauliY_after h, ?_, ?_, ?_⟩
  · exact mul_mem (mul_mem (rotation_target_mem_unitary Pauli.x_mul_x Pauli.x_conj _)
      (rotation_target_mem_unitary Pauli.y_mul_y Pauli.y_conj _))
      (rotation_control_mem_unitary Pauli.z_mul_z Pauli.z_conj _)
  · exact rotation_target_mem_unitary Pauli.x_mul_x Pauli.x_conj _
  · have hyz := rotation_commute (target_mul_control.trans control_mul_target.symm :
      (1 ⊗ₖ Pauli.y) * (Pauli.z ⊗ₖ 1) = (Pauli.z ⊗ₖ 1) * (1 ⊗ₖ Pauli.y)) (-(π / 4)) (-(π / 4))
    have hi : interaction ⟨0, 0, π / 4⟩ = rotation (π / 4) (Pauli.z ⊗ₖ Pauli.z) := by
      simp [interaction, Pauli.both]
    rw [controlledPauliY_toMatrix, ← controlled_kronecker Pauli.y_mul_y, ← hconj, hi]
    simp only [mul_assoc, hyz]

/-- Every gate is rebuilt from its decomposition. -/
theorem rebuilt (h : control ≠ target) (g : TwoGate ℝ) : g.Rebuilt control target := by
  cases g with
  | cnot => exact rebuilt_cnot h
  | swap => exact rebuilt_swap
  | iSwap => exact rebuilt_iSwap
  | fSwap => exact rebuilt_fSwap h
  | sqrtISwap => exact rebuilt_sqrtISwap
  | invSqrtISwap => exact rebuilt_invSqrtISwap
  | xy t => exact rebuilt_xy t
  | controlledPhaseShift t => exact rebuilt_controlledPhaseShift h t
  | controlledPauliY => exact rebuilt_controlledPauliY h
  | controlledPauliZ => exact rebuilt_controlledPauliZ h
  | molmerSorensenXX => exact rebuilt_molmerSorensenXX
  | variableMSXX t => exact rebuilt_variableMSXX t
  | givensRotation t p => exact rebuilt_givensRotation h t p
  | givensRotationLittleEndian t p => exact rebuilt_givensRotationLittleEndian t p
  | qsim x y z => exact rebuilt_qsim x y z
  | fsim t u d => exact rebuilt_fsim h t u d
  | spinInteraction x y z => exact rebuilt_spinInteraction x y z
  | bogoliubov re im => exact rebuilt_bogoliubov h re im
  | pmInteraction t => exact rebuilt_pmInteraction t
  | complexPMInteraction re im => exact rebuilt_complexPMInteraction h re im
  | phaseShiftedControlledZ p => exact rebuilt_phaseShiftedControlledZ h p
  | phaseShiftedControlledPhase t p => exact rebuilt_phaseShiftedControlledPhase h t p

end

theorem turn_smul_mem_unitary (w : ℝ) {U : Matrix Both Both ℂ}
    (h : U ∈ Matrix.unitaryGroup Both ℂ) : turn w • U ∈ Matrix.unitaryGroup Both ℂ := by
  rw [Matrix.mem_unitaryGroup_iff] at h ⊢
  have hw : turn w * turn (-w) = 1 := by rw [← turn_add, add_neg_cancel, turn_zero]
  rw [star_smul, smul_mul_smul_comm, h, Complex.star_def, ← turn_neg, hw, one_smul]

/-- A gate is, up to the global phase of its decomposition, the interaction of the decomposition
between the circuits of gates on control and target around it; in particular it is unitary. -/
theorem matrix_eq_kak {control target : ℕ} (h : control ≠ target) (g : TwoGate ℝ) :
    let k := (g.map number).kak control target
    (g.map number).evaluate = .ok g.matrix ∧
    (∀ c ∈ k.before.toList ++ k.after.toList, ∀ op ∈ c, op.IsLocal control target) ∧
    g.matrix.toMatrix ∈ Matrix.unitaryGroup Both ℂ ∧
    ∃ (phase x y z : ℝ) (before after : Matrix Both Both ℂ),
      k.globalPhase = number phase ∧ k.strengths = ⟨number x, number y, number z⟩ ∧
      optionalMatrix? control target k.before = some before ∧
      optionalMatrix? control target k.after = some after ∧
      interaction ⟨x, y, z⟩ = NormedSpace.exp (I • ((x : ℂ) • Pauli.both Pauli.x +
        (y : ℂ) • Pauli.both Pauli.y + (z : ℂ) • Pauli.both Pauli.z)) ∧
      g.matrix.toMatrix =
        Complex.exp (I * phase) • (after * interaction ⟨x, y, z⟩ * before) := by
  intro k
  obtain ⟨w, ⟨x, y, z⟩, before, after, hw, hs, hb, ha, ub, ua, hU⟩ := rebuilt h g
  refine ⟨?_, ?_, ?_, w, x, y, z, before, after, hw, hs, hb, ha, interaction_eq_exp x y z, ?_⟩
  · rw [evaluate, traverse_toNumber]
    rfl
  · intro c hc
    rcases List.mem_append.mp hc with hc | hc
    · rw [Option.mem_toList] at hc
      exact Circuit.isLocal_of_localMatrix? (U := before) (by rw [← hb, hc]; rfl)
    · rw [Option.mem_toList] at hc
      exact Circuit.isLocal_of_localMatrix? (U := after) (by rw [← ha, hc]; rfl)
  · rw [hU]
    exact turn_smul_mem_unitary w (mul_mem (mul_mem ua (interaction_mem_unitary _)) ub)
  · rw [hU, turn, mul_comm]

/-- The gate that flips qubit one under the control of qubit three. There are rotations on both
sides of its interaction. -/
theorem matrix_eq_kak_cnot :
    let k := (cnot.map number).kak 3 1
    let before := rotation (-(π / 4)) (1 ⊗ₖ Pauli.x) * rotation (-(π / 4)) (Pauli.y ⊗ₖ 1) *
      rotation (-(π / 4)) (Pauli.z ⊗ₖ 1)
    let after := rotation (π / 4) (Pauli.y ⊗ₖ 1)
    (3 : ℕ) ≠ 1 ∧ optionalMatrix? 3 1 k.before = some before ∧
      optionalMatrix? 3 1 k.after = some after ∧
      cnot.matrix.toMatrix ∈ Matrix.unitaryGroup Both ℂ ∧
      cnot.matrix.toMatrix =
        Complex.exp (I * (π / 4 : ℝ)) • (after * interaction ⟨π / 4, 0, 0⟩ * before) := by
  intro k before after
  have hqubits : (3 : ℕ) ≠ 1 := by decide
  have hbefore : optionalMatrix? 3 1 k.before = some before := cnot_before hqubits
  have hafter : optionalMatrix? 3 1 k.after = some after := cnot_after
  obtain ⟨-, -, hunitary, w, x, y, z, U, V, hw, hs, hU, hV, -, hmatrix⟩ :=
    matrix_eq_kak hqubits cnot
  obtain rfl : before = U := Option.some.inj (hbefore.symm.trans hU)
  obtain rfl : after = V := Option.some.inj (hafter.symm.trans hV)
  have hphase : π / 4 = w := by simpa [map, kak] using hw
  obtain ⟨rfl, rfl, rfl⟩ : π / 4 = x ∧ 0 = y ∧ 0 = z := by simpa [map, kak] using hs
  rw [← hphase] at hmatrix
  exact ⟨hqubits, hbefore, hafter, hunitary, hmatrix⟩

end TwoGate
end QuantumOps
