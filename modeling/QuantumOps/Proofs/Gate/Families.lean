import QuantumOps.Proofs.Gate.Exponential
import QuantumOps.Proofs.Gate.Form

/-! Gates of one family that are gates of another. On two qubits they have the same interaction, or
one that is turned about the z-axis of the target; on one qubit they are rotations about the same
axis. A coupling given by its two coordinates enters through its length and its angle, which for a
negative number are the opposite number and half a turn. -/
namespace QuantumOps
open Complex (I)
open Scalar (number)
open scoped Kronecker Real

/-- Matrices with the same entries are the same. -/
theorem Quad.toMatrix_injective : Function.Injective Quad.toMatrix := by
  intro m n h
  apply Quad.ext_get
  intro i
  apply Quad.ext_get
  intro j
  exact Amplitude.toComplex_injective (congrFun₂ h i j)

/-- Strengths of interactions that follow one another add up. -/
theorem interaction_mul (x y z x' y' z' : ℝ) : interaction ⟨x, y, z⟩ * interaction ⟨x', y', z'⟩ =
    interaction ⟨x + x', y + y', z + z'⟩ := by
  have heven : x + x' - (y + y') = x - y + (x' - y') := by ring
  have hodd : x + x' + (y + y') = x + y + (x' + y') := by ring
  simp only [interaction_eq_parityBlocks, parityBlocks_mul, smul_mul_smul_comm, ← turn_add,
    rotation_mul Pauli.x_mul_x, heven, hodd, neg_add]

/-! The length and the angle of a real number, seen through the sine of the length. -/

theorem Amplitude.abs_ofReal (t : ℝ) : (⟨t, 0⟩ : Amplitude ℝ).abs = |t| := by
  rw [Amplitude.abs, Numeric.hypot_real, mul_zero, add_zero, Real.sqrt_mul_self_eq_abs]

theorem Amplitude.arg_ofReal (t : ℝ) : (⟨t, 0⟩ : Amplitude ℝ).arg = Complex.arg t := rfl

theorem sin_abs_mul_cos_arg (t : ℝ) : Real.sin |t| * Real.cos (Complex.arg t) = Real.sin t := by
  rcases le_or_gt 0 t with ht | ht
  · rw [abs_of_nonneg ht, Complex.arg_ofReal_of_nonneg ht, Real.cos_zero, mul_one]
  · rw [abs_of_neg ht, Complex.arg_ofReal_of_neg ht, Real.cos_pi, Real.sin_neg, neg_mul_neg, mul_one]

theorem sin_abs_mul_sin_arg (t : ℝ) : Real.sin |t| * Real.sin (Complex.arg t) = 0 := by
  rcases le_or_gt 0 t with ht | ht
  · rw [Complex.arg_ofReal_of_nonneg ht, Real.sin_zero, mul_zero]
  · rw [Complex.arg_ofReal_of_neg ht, Real.sin_pi, mul_zero]

namespace SingleGate

/-- With numbers for parameters both gates have a unitary matrix, the same one. -/
def Coincides (g h : SingleGate ℝ) : Prop :=
  ∃ U, (g.map number).evaluate = .ok U ∧ (h.map number).evaluate = .ok U

theorem Coincides.of_toMatrix {g h : SingleGate ℝ} (hg : g.angle?.isSome) (hh : h.angle?.isSome)
    (hm : g.matrix.toMatrix = h.matrix.toMatrix) : g.Coincides h := by
  refine ⟨g.matrix, evaluate_of_angle? hg, ?_⟩
  rw [evaluate_of_angle? hh, Pair.toMatrix_injective hm]

theorem rotateXY_coincides (t p : ℝ) :
    (rotateXY t p).Coincides (rotateAroundSphericalAxis t (π / 2) p) := by
  refine .of_toMatrix rfl rfl ?_
  rw [rotateXY_toMatrix, rotateAroundSphericalAxis_toMatrix, Real.sin_pi_div_two,
    Real.cos_pi_div_two, one_mul, one_mul]

theorem rotateX_coincides (t : ℝ) : (rotateX t).Coincides (rotateXY t 0) := by
  refine .of_toMatrix rfl rfl ?_
  rw [rotateX_toMatrix, rotateXY_toMatrix, Real.cos_zero, Real.sin_zero]
  simp [Pauli.along]

theorem rotateY_coincides (t : ℝ) : (rotateY t).Coincides (rotateXY t (π / 2)) := by
  refine .of_toMatrix rfl rfl ?_
  rw [rotateY_toMatrix, rotateXY_toMatrix, Real.cos_pi_div_two, Real.sin_pi_div_two]
  simp [Pauli.along]

theorem rotateZ_coincides (t p : ℝ) :
    (rotateZ t).Coincides (rotateAroundSphericalAxis t 0 p) := by
  refine .of_toMatrix rfl rfl ?_
  rw [rotateZ_eq_rotation, rotateAroundSphericalAxis_toMatrix, Real.sin_zero, Real.cos_zero]
  simp [Pauli.along]

end SingleGate

namespace TwoGate

/-- With numbers for parameters both gates have a unitary matrix, the same one. -/
def Coincides (g h : TwoGate ℝ) : Prop :=
  ∃ U, (g.map number).evaluate = .ok U ∧ (h.map number).evaluate = .ok U

theorem coincides_iff {g h : TwoGate ℝ} :
    g.Coincides h ↔ g.matrix.toMatrix = h.matrix.toMatrix := by
  rw [Coincides, evaluate_map_number, evaluate_map_number]
  constructor
  · rintro ⟨U, hg, hh⟩
    cases hg
    injection hh with hh
    rw [hh]
  · exact fun hm => ⟨_, rfl, congrArg _ (Quad.toMatrix_injective hm.symm)⟩

theorem pmInteraction_coincides_xy (t : ℝ) : (pmInteraction t).Coincides (xy (-2 * t)) := by
  rw [coincides_iff, pmInteraction_eq_interaction, xy_eq_interaction]
  congr 3 <;> ring

theorem pmInteraction_coincides_spinInteraction (t : ℝ) :
    (pmInteraction t).Coincides (spinInteraction (t / 2) (t / 2) 0) := by
  rw [coincides_iff, pmInteraction_eq_interaction, spinInteraction_eq_interaction]
  congr 3 <;> ring

theorem variableMSXX_coincides (t : ℝ) :
    (variableMSXX t).Coincides (spinInteraction (t / 2) 0 0) := by
  rw [coincides_iff, variableMSXX_eq_interaction, spinInteraction_eq_interaction]
  congr 3 <;> ring

theorem complexPMInteraction_coincides (t : ℝ) :
    (complexPMInteraction t 0).Coincides (pmInteraction t) := by
  have hsin := mul_eq_zero.mp (sin_abs_mul_sin_arg t)
  rw [coincides_iff, matrix, matrix, TwoGate.inner, TwoGate.inner, toMatrix_eq_parityBlocks,
    toMatrix_eq_parityBlocks, Amplitude.abs_ofReal, Amplitude.arg_ofReal]
  congr 1
  ext i j
  fin_cases i <;> fin_cases j <;> apply Complex.ext <;>
    simp [Amplitude.toComplex, sin_abs_mul_cos_arg, hsin]

theorem bogoliubov_coincides (d : ℝ) :
    (bogoliubov d 0).Coincides (spinInteraction (-(d / 2)) (d / 2) 0) := by
  have hsin := mul_eq_zero.mp (sin_abs_mul_sin_arg d)
  have hangle : -(d / 2) - d / 2 = -d := by ring
  rw [coincides_iff, matrix, matrix, crossed, toMatrix_eq_parityBlocks, toMatrix_eq_parityBlocks,
    Amplitude.abs_ofReal, Amplitude.arg_ofReal]
  congr 1
  · ext i j
    fin_cases i <;> fin_cases j <;> apply Complex.ext <;>
      simp [Amplitude.toComplex, spinTerms, sin_abs_mul_cos_arg, hsin, hangle]
  · ext i j
    fin_cases i <;> fin_cases j <;> apply Complex.ext <;> simp [Amplitude.toComplex, spinTerms]

theorem controlledPhaseShift_coincides (t : ℝ) :
    (controlledPhaseShift t).Coincides (phaseShiftedControlledPhase t 0) := by
  rw [coincides_iff, controlledPhaseShift_toMatrix, phaseShiftedControlledPhase_toMatrix,
    isOneParameter_phaseShift.map_zero, Matrix.one_kronecker_one, mul_one]

theorem phaseShiftedControlledZ_coincides (p : ℝ) :
    (phaseShiftedControlledZ p).Coincides (phaseShiftedControlledPhase π p) := by
  rw [coincides_iff]
  rfl

theorem qsim_hasUnitary (x y z : ℝ) : (qsim x y z).HasUnitary
    (swap.matrix.toMatrix * (spinInteraction x y z).matrix.toMatrix) := by
  rw [hasUnitary_iff, qsim_eq_interaction, swap_eq_interaction, spinInteraction_eq_interaction,
    smul_mul_smul_comm, ← turn_add, interaction_mul, add_zero]
  simp only [add_comm]

/-- A rotation about the z-axis of the target. -/
theorem target_rotateZ (a : ℝ) :
    (1 : Matrix (Fin 2) (Fin 2) ℂ) ⊗ₖ (SingleGate.rotateZ a).matrix.toMatrix = zTurns 0 a := by
  rw [rotateZ_toMatrix, zTurn_target, zTurns]
  congr 2 <;> ring

/-- The interaction of a coupling lies between turns of the target by its angle. -/
theorem complexPMInteraction_hasUnitary (a b : ℝ) : (complexPMInteraction a b).HasUnitary
    ((1 ⊗ₖ (SingleGate.rotateZ (-Complex.arg ⟨a, b⟩)).matrix.toMatrix) *
      (pmInteraction √(a ^ 2 + b ^ 2)).matrix.toMatrix *
      (1 ⊗ₖ (SingleGate.rotateZ (Complex.arg ⟨a, b⟩)).matrix.toMatrix)) := by
  have hk : ((complexPMInteraction a b).map number).kak 0 1 =
      ⟨number 0, ⟨number (√(a * a + b * b) / (-2)), number (√(a * a + b * b) / (-2)), number 0⟩,
        rotations [(.rotateZ (number (Complex.arg ⟨a, b⟩)), 1)],
        rotations [(.rotateZ (number (-Complex.arg ⟨a, b⟩)), 1)]⟩ := by
    simp [map, kak, ComplexScalar.norm, ComplexScalar.arg]
  rw [hasUnitary_iff, (@rebuilt_complexPMInteraction 0 1 (by decide) a b).eq_turned hk
    (optionalMatrix?_target (by decide) _) (optionalMatrix?_target (by decide) _), target_rotateZ,
    target_rotateZ, pmInteraction_eq_interaction, turn_zero, one_smul, one_smul, sq, sq]

end TwoGate

/-- The gates that stand for the same unitary matrix whatever their real parameters are. A coupling
without an imaginary part is a real coupling, of either sign; with one it is the real coupling of the
same length between two opposite rotations of the target about the z-axis. -/
theorem families_coincide :
    (∀ t : ℝ, (TwoGate.complexPMInteraction t 0).Coincides (.pmInteraction t) ∧
      (TwoGate.pmInteraction t).Coincides (.xy (-2 * t)) ∧
      (TwoGate.pmInteraction t).Coincides (.spinInteraction (t / 2) (t / 2) 0)) ∧
    (∀ a b : ℝ, ∃ (angle : ℝ) (S T : Matrix (Fin 2) (Fin 2) ℂ) (P : Matrix Both Both ℂ),
      (SingleGate.rotateZ (-angle)).HasUnitary S ∧ (SingleGate.rotateZ angle).HasUnitary T ∧
      S * T = 1 ∧ (TwoGate.pmInteraction √(a ^ 2 + b ^ 2)).HasUnitary P ∧
      (TwoGate.complexPMInteraction a b).HasUnitary ((1 ⊗ₖ S) * P * (1 ⊗ₖ T))) ∧
    (∀ d : ℝ, (TwoGate.bogoliubov d 0).Coincides (.spinInteraction (-(d / 2)) (d / 2) 0)) ∧
    (∀ t : ℝ, (TwoGate.variableMSXX t).Coincides (.spinInteraction (t / 2) 0 0)) ∧
    (∀ x y z : ℝ, ∃ S P : Matrix Both Both ℂ, TwoGate.swap.HasUnitary S ∧
      (TwoGate.spinInteraction x y z).HasUnitary P ∧ (TwoGate.qsim x y z).HasUnitary (S * P)) ∧
    (∀ p : ℝ, (TwoGate.phaseShiftedControlledZ p).Coincides (.phaseShiftedControlledPhase π p)) ∧
    (∀ t : ℝ, (TwoGate.controlledPhaseShift t).Coincides (.phaseShiftedControlledPhase t 0)) ∧
    (∀ t p : ℝ, (SingleGate.rotateXY t p).Coincides (.rotateAroundSphericalAxis t (π / 2) p)) ∧
    (∀ t : ℝ, (SingleGate.rotateX t).Coincides (.rotateXY t 0)) ∧
    (∀ t : ℝ, (SingleGate.rotateY t).Coincides (.rotateXY t (π / 2))) ∧
    ∀ t p : ℝ, (SingleGate.rotateZ t).Coincides (.rotateAroundSphericalAxis t 0 p) := by
  refine ⟨fun t => ⟨TwoGate.complexPMInteraction_coincides t, TwoGate.pmInteraction_coincides_xy t,
    TwoGate.pmInteraction_coincides_spinInteraction t⟩, fun a b => ?_,
    TwoGate.bogoliubov_coincides, TwoGate.variableMSXX_coincides, fun x y z => ?_,
    TwoGate.phaseShiftedControlledZ_coincides, TwoGate.controlledPhaseShift_coincides,
    SingleGate.rotateXY_coincides, SingleGate.rotateX_coincides, SingleGate.rotateY_coincides,
    SingleGate.rotateZ_coincides⟩
  · refine ⟨Complex.arg ⟨a, b⟩, _, _, _, ⟨_, SingleGate.evaluate_of_angle? rfl, rfl⟩,
      ⟨_, SingleGate.evaluate_of_angle? rfl, rfl⟩, ?_, TwoGate.hasUnitary_iff.mpr rfl,
      TwoGate.complexPMInteraction_hasUnitary a b⟩
    rw [rotateZ_toMatrix, rotateZ_toMatrix, zTurn_mul, neg_div, neg_add_cancel, zTurn_zero]
  · exact ⟨_, _, TwoGate.hasUnitary_iff.mpr rfl, TwoGate.hasUnitary_iff.mpr rfl,
      TwoGate.qsim_hasUnitary x y z⟩

end QuantumOps
