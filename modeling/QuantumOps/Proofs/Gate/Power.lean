import QuantumOps.Proofs.Exact.OneParameter
import QuantumOps.Proofs.Gate.Product
import QuantumOps.Proofs.Kak.Turns

/-! Powers of rotations. Seen as a function of its angle, the matrix of a rotation turns sums into
products, next to a phase shift that does not depend on the angle and that most rotations do not
have. A power multiplies the angle, so that it is the power of the matrix up to that shift. -/
namespace QuantumOps
open Complex (I)
open Scalar (number)
open scoped Kronecker Real

/-- The phase of the state one shifted by an angle. -/
noncomputable def phaseShift (angle : ℝ) : Matrix (Fin 2) (Fin 2) ℂ := !![1, 0; 0, turn angle]

theorem isOneParameter_phaseShift : IsOneParameter phaseShift where
  map_zero := by rw [phaseShift, turn_zero, Matrix.one_fin_two]
  map_add x y := by simp [phaseShift, turn_add]

theorem turn_eq_one_iff {a : ℝ} : turn a = 1 ↔ ∃ k : ℤ, a = k * (2 * π) := by
  rw [turn, Complex.exp_eq_one_iff]
  refine exists_congr fun k => ?_
  rw [← mul_assoc, mul_left_inj' Complex.I_ne_zero]
  norm_cast

theorem Amplitude.toComplex_scale (z : Amplitude ℝ) (x : ℝ) :
    (z.scale x).toComplex = z.toComplex * x := by
  apply Complex.ext <;> simp [toComplex, scale]

namespace Pauli

theorem rotation_y (angle : ℝ) : rotation angle y =
    !![(Real.cos angle : ℂ), (Real.sin angle : ℂ); -Real.sin angle, Real.cos angle] := by
  ext i j
  fin_cases i <;> fin_cases j <;> apply Complex.ext <;>
    simp [rotation, y, -Complex.ofReal_cos, -Complex.ofReal_sin]

/-- The component along an axis. -/
noncomputable def along (a b c : ℝ) : Matrix (Fin 2) (Fin 2) ℂ :=
  (a : ℂ) • x + (b : ℂ) • y + (c : ℂ) • z

theorem along_mul_along {a b c : ℝ} (h : a ^ 2 + b ^ 2 + c ^ 2 = 1) :
    along a b c * along a b c = 1 := by
  have hc : (a : ℂ) ^ 2 + (b : ℂ) ^ 2 + (c : ℂ) ^ 2 = 1 := by exact_mod_cast h
  ext i j
  fin_cases i <;> fin_cases j <;> simp [along, x, y, z, Matrix.mul_apply]
  · linear_combination hc - (b : ℂ) ^ 2 * Complex.I_mul_I
  · ring
  · ring
  · linear_combination hc - (b : ℂ) ^ 2 * Complex.I_mul_I

end Pauli

namespace SingleGate

theorem rotateXY_toMatrix (t p : ℝ) : (rotateXY t p).matrix.toMatrix =
    rotation (-(t / 2)) (Pauli.along (Real.cos p) (Real.sin p) 0) := by
  ext i j
  fin_cases i <;> fin_cases j <;> apply Complex.ext <;>
    simp [Pair.toMatrix, Pair.get, matrix, rotation, Pauli.along, Pauli.x, Pauli.y,
      -Complex.ofReal_cos, -Complex.ofReal_sin]

theorem rotateAroundSphericalAxis_toMatrix (t polar azimuth : ℝ) :
    (rotateAroundSphericalAxis t polar azimuth).matrix.toMatrix = rotation (-(t / 2))
      (Pauli.along (Real.sin polar * Real.cos azimuth) (Real.sin polar * Real.sin azimuth)
        (Real.cos polar)) := by
  ext i j
  fin_cases i <;> fin_cases j <;> apply Complex.ext <;>
    simp [Pair.toMatrix, Pair.get, matrix, rotation, Pauli.along, Pauli.x, Pauli.y, Pauli.z,
      -Complex.ofReal_cos, -Complex.ofReal_sin]

theorem phaseShiftState1_toMatrix (t : ℝ) :
    (phaseShiftState1 t).matrix.toMatrix = phaseShift t := by
  rw [matrix, Pair.toMatrix_mk, Amplitude.toComplex_phase, phaseShift]
  simp

/-- The matrix of a rotation as a function of the angle. -/
theorem isOneParameter_matrix {g : SingleGate ℝ} (h : g.angle?.isSome) :
    IsOneParameter fun x => (g.mapAngle fun _ => x).matrix.toMatrix := by
  cases g with
  | rotateZ t =>
    simpa only [mapAngle, rotateZ_eq_rotation] using .rotation_half Pauli.z_mul_z
  | rotateX t =>
    simpa only [mapAngle, rotateX_toMatrix] using .rotation_half Pauli.x_mul_x
  | rotateY t =>
    simpa only [mapAngle, rotateY_toMatrix] using .rotation_half Pauli.y_mul_y
  | rotateXY t p =>
    have hunit : Real.cos p ^ 2 + Real.sin p ^ 2 + 0 ^ 2 = 1 := by
      rw [Real.cos_sq_add_sin_sq]
      norm_num
    simpa only [mapAngle, rotateXY_toMatrix] using .rotation_half (Pauli.along_mul_along hunit)
  | rotateAroundSphericalAxis t polar azimuth =>
    have hunit : (Real.sin polar * Real.cos azimuth) ^ 2 +
        (Real.sin polar * Real.sin azimuth) ^ 2 + Real.cos polar ^ 2 = 1 := by
      linear_combination Real.sin polar ^ 2 * Real.cos_sq_add_sin_sq azimuth +
        Real.sin_sq_add_cos_sq polar
    simpa only [mapAngle, rotateAroundSphericalAxis_toMatrix] using
      .rotation_half (Pauli.along_mul_along hunit)
  | phaseShiftState1 t =>
    simpa only [mapAngle, phaseShiftState1_toMatrix] using isOneParameter_phaseShift
  | phaseShiftState0 t =>
    have hswap (x : ℝ) : (phaseShiftState0 x).matrix.toMatrix =
        Pauli.x * phaseShift x * Pauli.x := by
      rw [matrix, Pair.toMatrix_mk, Amplitude.toComplex_phase, phaseShift, Pauli.x]
      simp
    simpa only [mapAngle, hswap] using isOneParameter_phaseShift.conj Pauli.x_mul_x
  | _ => cases h

end SingleGate

namespace TwoGate

/-- The angle of the phase shift that belongs to the gate whatever its angle is. -/
def shiftAngle? {α : Type} : TwoGate α → Option α
  | givensRotation _ p | givensRotationLittleEndian _ p | phaseShiftedControlledPhase _ p => some p
  | _ => none

/-- The phase shift that belongs to the gate whatever its angle is: on the target, on the control or
on both. -/
noncomputable def shift : TwoGate ℝ → Matrix Both Both ℂ
  | givensRotation _ p => 1 ⊗ₖ phaseShift p
  | givensRotationLittleEndian _ p => phaseShift p ⊗ₖ 1
  | phaseShiftedControlledPhase _ p => phaseShift p ⊗ₖ phaseShift p
  | _ => 1

theorem phaseShift_target (p : ℝ) : 1 ⊗ₖ phaseShift p =
    QuantumOps.parityBlocks !![1, 0; 0, turn p] !![turn p, 0; 0, 1] := by
  ext ⟨i, j⟩ ⟨k, l⟩
  fin_cases i <;> fin_cases j <;> fin_cases k <;> fin_cases l <;> simp [phaseShift, parityBlocks]

theorem phaseShift_control (p : ℝ) : phaseShift p ⊗ₖ 1 =
    QuantumOps.parityBlocks !![1, 0; 0, turn p] !![1, 0; 0, turn p] := by
  ext ⟨i, j⟩ ⟨k, l⟩
  fin_cases i <;> fin_cases j <;> fin_cases k <;> fin_cases l <;> simp [phaseShift, parityBlocks]

theorem phaseShift_both (p : ℝ) : phaseShift p ⊗ₖ phaseShift p =
    QuantumOps.parityBlocks !![1, 0; 0, turn (2 * p)] !![turn p, 0; 0, turn p] := by
  ext ⟨i, j⟩ ⟨k, l⟩
  fin_cases i <;> fin_cases j <;> fin_cases k <;> fin_cases l <;>
    simp [phaseShift, parityBlocks, two_mul, turn_add]

theorem isUnit_det_shift (g : TwoGate ℝ) : IsUnit g.shift.det := by
  cases g with
  | givensRotation t p => exact (IsOneParameter.one.kronecker isOneParameter_phaseShift).isUnit_det p
  | givensRotationLittleEndian t p =>
    exact (isOneParameter_phaseShift.kronecker .one).isUnit_det p
  | phaseShiftedControlledPhase t p =>
    exact (isOneParameter_phaseShift.kronecker isOneParameter_phaseShift).isUnit_det p
  | _ => simp [shift]

theorem shift_eq_one_iff (g : TwoGate ℝ) :
    g.shift = 1 ↔ ∀ p, g.shiftAngle? = some p → turn p = 1 := by
  have hone {p : ℝ} (h : turn p = 1) : phaseShift p = 1 := by
    rw [phaseShift, h, Matrix.one_fin_two]
  have hentry {A : Matrix Both Both ℂ} (h : A = 1) (i : Both) : A i i = 1 := by
    rw [h, Matrix.one_apply_eq]
  constructor
  · intro h p hp
    cases g with
    | givensRotation t p' =>
      obtain rfl : p' = p := Option.some.inj hp
      simpa [shift, phaseShift] using hentry h (0, 1)
    | givensRotationLittleEndian t p' =>
      obtain rfl : p' = p := Option.some.inj hp
      simpa [shift, phaseShift] using hentry h (1, 0)
    | phaseShiftedControlledPhase t p' =>
      obtain rfl : p' = p := Option.some.inj hp
      simpa [shift, phaseShift] using hentry h (0, 1)
    | _ => cases hp
  · intro h
    cases g with
    | givensRotation t p => rw [shift, hone (h p rfl), Matrix.one_kronecker_one]
    | givensRotationLittleEndian t p => rw [shift, hone (h p rfl), Matrix.one_kronecker_one]
    | phaseShiftedControlledPhase t p => rw [shift, hone (h p rfl), Matrix.one_kronecker_one]
    | _ => rfl

theorem xy_toMatrix (t : ℝ) :
    (xy t).matrix.toMatrix = QuantumOps.parityBlocks 1 (rotation (1 / 2 * t) Pauli.x) := by
  rw [matrix, TwoGate.inner, toMatrix_eq_parityBlocks, one_div_mul_eq_div]
  congr 1
  · ext i j
    fin_cases i <;> fin_cases j <;> simp
  · ext i j
    fin_cases i <;> fin_cases j <;> simp [rotation, Pauli.x, Amplitude.scale]

theorem controlledPhaseShift_toMatrix (t : ℝ) :
    (controlledPhaseShift t).matrix.toMatrix = QuantumOps.parityBlocks (phaseShift t) 1 := by
  rw [matrix, diagonal, toMatrix_eq_parityBlocks, phaseShift, Amplitude.toComplex_phase]
  congr 1
  · simp
  · ext i j
    fin_cases i <;> fin_cases j <;> simp

theorem variableMSXX_toMatrix (t : ℝ) :
    (variableMSXX t).matrix.toMatrix = rotation (-(t / 2)) (Pauli.both Pauli.x) := by
  rw [matrix, crossed, toMatrix_eq_parityBlocks, Pauli.both_x, rotation_parityBlocks]
  congr 1 <;>
  · ext i j
    fin_cases i <;> fin_cases j <;> simp [rotation, Pauli.x, Amplitude.scale]

theorem givensRotation_toMatrix (t p : ℝ) : (givensRotation t p).matrix.toMatrix =
    QuantumOps.parityBlocks 1 (rotation (1 * t) Pauli.y) * (1 ⊗ₖ phaseShift p) := by
  rw [matrix, TwoGate.inner, toMatrix_eq_parityBlocks, phaseShift_target, parityBlocks_mul,
    one_mul, Pauli.rotation_y]
  congr 1
  · simp [Amplitude.toComplex_phase]
  · simp [Amplitude.toComplex_phase, Amplitude.toComplex_scale, mul_comm]

theorem givensRotationLittleEndian_toMatrix (t p : ℝ) :
    (givensRotationLittleEndian t p).matrix.toMatrix =
      (phaseShift p ⊗ₖ 1) * QuantumOps.parityBlocks 1 (rotation (1 * t) Pauli.y) := by
  rw [matrix, TwoGate.inner, toMatrix_eq_parityBlocks, phaseShift_control, parityBlocks_mul,
    one_mul, Pauli.rotation_y]
  congr 1
  · simp [Amplitude.toComplex_phase]
  · simp [Amplitude.toComplex_phase, Amplitude.toComplex_scale]

theorem phaseShiftedControlledPhase_toMatrix (t p : ℝ) :
    (phaseShiftedControlledPhase t p).matrix.toMatrix =
      QuantumOps.parityBlocks (phaseShift t) 1 * (phaseShift p ⊗ₖ phaseShift p) := by
  rw [matrix, diagonal, toMatrix_eq_parityBlocks, phaseShift_both, parityBlocks_mul, phaseShift]
  congr 1
  · simp [Amplitude.toComplex_phase, turn_add, mul_comm]
  · simp [Amplitude.toComplex_phase]

/-- The matrix as a function of the angle, next to the phase shift of the gate. -/
theorem exists_matrix_eq_mul_shift {g : TwoGate ℝ} (h : g.angle?.isSome) :
    ∃ R, IsOneParameter R ∧ ∀ x, (g.mapAngle fun _ => x).matrix.toMatrix = R x * g.shift := by
  cases g with
  | xy t =>
    exact ⟨_, .parityBlocks .one (.rotation Pauli.x_mul_x (1 / 2)),
      fun x => (xy_toMatrix x).trans (mul_one _).symm⟩
  | controlledPhaseShift t =>
    exact ⟨_, isOneParameter_phaseShift.parityBlocks .one,
      fun x => (controlledPhaseShift_toMatrix x).trans (mul_one _).symm⟩
  | variableMSXX t =>
    exact ⟨_, .rotation_half (Pauli.both_mul_both Pauli.x_mul_x),
      fun x => (variableMSXX_toMatrix x).trans (mul_one _).symm⟩
  | givensRotation t p =>
    exact ⟨_, .parityBlocks .one (.rotation Pauli.y_mul_y 1), fun x => givensRotation_toMatrix x p⟩
  | givensRotationLittleEndian t p =>
    -- The shift comes after the rotation, which is therefore seen from behind the shift.
    have hshift := (isOneParameter_phaseShift.kronecker .one).mul_neg p
    refine ⟨_, (IsOneParameter.parityBlocks .one (.rotation Pauli.y_mul_y 1)).conj hshift,
      fun x => ?_⟩
    rw [mapAngle, givensRotationLittleEndian_toMatrix, shift, mul_assoc _ _ (phaseShift p ⊗ₖ 1),
      mul_eq_one_comm.mp hshift, mul_one]
  | phaseShiftedControlledPhase t p =>
    exact ⟨_, isOneParameter_phaseShift.parityBlocks .one,
      fun x => phaseShiftedControlledPhase_toMatrix x p⟩
  | _ => cases h

theorem mapAngle_eq {g : TwoGate ℝ} {t : ℝ} (h : g.angle? = some t) (f : ℝ → ℝ) :
    g.mapAngle f = g.mapAngle fun _ => f t := by
  cases g <;> simp_all [angle?, mapAngle]

theorem mapAngle_mul (g : TwoGate ℝ) (a b : ℝ) :
    (g.mapAngle (· * a)).mapAngle (· * b) = g.mapAngle (· * (a * b)) := by
  cases g <;> simp only [mapAngle, mul_assoc]

theorem mapAngle_one (g : TwoGate ℝ) : g.mapAngle (· * 1) = g := by
  cases g <;> simp only [mapAngle, mul_one]

theorem isSome_angle?_mapAngle {g : TwoGate ℝ} (h : g.angle?.isSome) (f : ℝ → ℝ) :
    (g.mapAngle f).angle?.isSome := by
  cases g <;> first | rfl | cases h

theorem evaluate_map_number (g : TwoGate ℝ) : (g.map number).evaluate = .ok g.matrix := by
  rw [evaluate, traverse_toNumber]
  rfl

end TwoGate

namespace SingleGate

theorem mapAngle_eq {g : SingleGate ℝ} {t : ℝ} (h : g.angle? = some t) (f : ℝ → ℝ) :
    g.mapAngle f = g.mapAngle fun _ => f t := by
  cases g <;> simp_all [angle?, mapAngle]

theorem mapAngle_mul (g : SingleGate ℝ) (a b : ℝ) :
    (g.mapAngle (· * a)).mapAngle (· * b) = g.mapAngle (· * (a * b)) := by
  cases g <;> simp only [mapAngle, mul_assoc]

theorem mapAngle_one (g : SingleGate ℝ) : g.mapAngle (· * 1) = g := by
  cases g <;> simp only [mapAngle, mul_one]

theorem isSome_angle?_mapAngle {g : SingleGate ℝ} (h : g.angle?.isSome) (f : ℝ → ℝ) :
    (g.mapAngle f).angle?.isSome := by
  cases g <;> first | rfl | cases h

theorem evaluate_of_angle? {g : SingleGate ℝ} (h : g.angle?.isSome) :
    (g.map number).evaluate = .ok g.matrix := by
  refine evaluate_numbers ?_
  cases g <;> first | rfl | cases h

end SingleGate

namespace Operation

/-- A gate with numbers for parameters on a control and a target. -/
def numericTwoGate (g : TwoGate ℝ) (control target : ℕ) : Operation ℝ :=
  record (.twoQubit (g.map number) control target)

theorem rotationPower_numericGate {g : SingleGate ℝ} (h : g.angle?.isSome) (q : ℕ) (a : ℝ) :
    (numericGate g q).rotationPower (number a) = .ok (numericGate (g.mapAngle (· * a)) q) := by
  cases g <;> first | rfl | cases h

theorem rotationPower_numericTwoGate {g : TwoGate ℝ} (h : g.angle?.isSome) (c t : ℕ) (a : ℝ) :
    (numericTwoGate g c t).rotationPower (number a) =
      .ok (numericTwoGate (g.mapAngle (· * a)) c t) := by
  cases g <;> first | rfl | cases h

/-- Every rotation with numbers for parameters has all real powers, and a power of a power is the
power by the product. On one qubit the matrix of a natural power is the power of the matrix. On two
qubits it is so up to the phase shift by the second angle that some gates have, which stays as it
is; it is the power of the matrix for all natural numbers just when that angle is a multiple of a
full turn. -/
theorem rotationPower_exact :
    (∀ (g : SingleGate ℝ) (q : ℕ), g.angle?.isSome →
      ∃ (power : ℝ → SingleGate ℝ) (U : ℝ → Matrix2 (Amplitude ℝ)), power 1 = g ∧
        (∀ a b, (numericGate (power a) q).rotationPower (number b) =
          .ok (numericGate (power (a * b)) q)) ∧
        (∀ a, ((power a).map number).evaluate = .ok (U a)) ∧
        ∀ n : ℕ, (U n).toMatrix = (U 1).toMatrix ^ n) ∧
    ∀ (g : TwoGate ℝ) (c t : ℕ), g.angle?.isSome →
      ∃ (power : ℝ → TwoGate ℝ) (U : ℝ → Matrix4 (Amplitude ℝ)), power 1 = g ∧
        (∀ a b, (numericTwoGate (power a) c t).rotationPower (number b) =
          .ok (numericTwoGate (power (a * b)) c t)) ∧
        (∀ a, ((power a).map number).evaluate = .ok (U a)) ∧
        (U 0).toMatrix = g.shift ∧
        (∀ n : ℕ, (U n).toMatrix = ((U 1).toMatrix * g.shift⁻¹) ^ n * g.shift) ∧
        ((∀ n : ℕ, (U n).toMatrix = (U 1).toMatrix ^ n) ↔
          ∀ p, g.shiftAngle? = some p → ∃ k : ℤ, p = k * (2 * π)) := by
  constructor
  · intro g q h
    obtain ⟨t, ht⟩ := Option.isSome_iff_exists.mp h
    have hpow (n : ℕ) : (g.mapAngle (· * (n : ℝ))).matrix.toMatrix =
        (g.mapAngle (· * 1)).matrix.toMatrix ^ n := by
      rw [g.mapAngle_eq ht, g.mapAngle_eq ht (· * 1), mul_one]
      exact (SingleGate.isOneParameter_matrix h).pow t n
    refine ⟨fun a => g.mapAngle (· * a), fun a => (g.mapAngle (· * a)).matrix, g.mapAngle_one,
      fun a b => ?_, fun a => ?_, hpow⟩
    · rw [rotationPower_numericGate (g.isSome_angle?_mapAngle h _), g.mapAngle_mul]
    · exact SingleGate.evaluate_of_angle? (g.isSome_angle?_mapAngle h _)
  · intro g c t h
    obtain ⟨x, hx⟩ := Option.isSome_iff_exists.mp h
    obtain ⟨R, hR, hmatrix⟩ := TwoGate.exists_matrix_eq_mul_shift h
    have hU (a : ℝ) : (g.mapAngle (· * a)).matrix.toMatrix = R (x * a) * g.shift := by
      rw [g.mapAngle_eq hx, hmatrix]
    have hzero : (g.mapAngle (· * 0)).matrix.toMatrix = g.shift := by
      rw [hU, mul_zero, hR.map_zero, one_mul]
    have hpow (n : ℕ) : (g.mapAngle (· * (n : ℝ))).matrix.toMatrix =
        ((g.mapAngle (· * 1)).matrix.toMatrix * g.shift⁻¹) ^ n * g.shift := by
      rw [hU, hU, mul_one, hR.pow_mul g.isUnit_det_shift]
    refine ⟨fun a => g.mapAngle (· * a), fun a => (g.mapAngle (· * a)).matrix, g.mapAngle_one,
      fun a b => ?_, fun a => TwoGate.evaluate_map_number _, hzero, hpow, ?_⟩
    · rw [rotationPower_numericTwoGate (g.isSome_angle?_mapAngle h _), g.mapAngle_mul]
    · simp only [← turn_eq_one_iff, ← g.shift_eq_one_iff]
      constructor
      · intro hn
        have hn0 := hn 0
        rwa [Nat.cast_zero, hzero, pow_zero] at hn0
      · intro hone n
        rw [hpow, hone, inv_one, mul_one, mul_one]

/-- A rotation about an axis in the xy-plane is cubed, whereas the powers of a Givens rotation with a
phase of half a turn are not all powers of its matrix. -/
theorem rotationPower_exact_halfTurn :
    let g : SingleGate ℝ := .rotateXY 1 2
    let g' : TwoGate ℝ := .givensRotation 1 π
    g.angle?.isSome ∧ g'.angle?.isSome ∧
    (∃ (h : SingleGate ℝ) (U V : Matrix2 (Amplitude ℝ)),
      (numericGate g 4).rotationPower (number 3) = .ok (numericGate h 4) ∧
      (g.map number).evaluate = .ok U ∧ (h.map number).evaluate = .ok V ∧
      V.toMatrix = U.toMatrix ^ 3) ∧
    ∃ (h : ℝ → TwoGate ℝ) (U : ℝ → Matrix4 (Amplitude ℝ)),
      (∀ a, (numericTwoGate g' 0 1).rotationPower (number a) = .ok (numericTwoGate (h a) 0 1)) ∧
      (∀ a, ((h a).map number).evaluate = .ok (U a)) ∧
      ¬∀ n : ℕ, (U n).toMatrix = (U 1).toMatrix ^ n := by
  intro g g'
  obtain ⟨power, U, hone, hpower, hU, hcube⟩ := rotationPower_exact.1 g 4 rfl
  obtain ⟨power', U', hone', hpower', hU', -, -, hiff⟩ := rotationPower_exact.2 g' 0 1 rfl
  refine ⟨rfl, rfl, ⟨power 3, U 1, U 3, ?_, hone ▸ hU 1, hU 3, ?_⟩, power', U', fun a => ?_, hU',
    fun hall => ?_⟩
  · rw [← hone, hpower, one_mul]
  · exact_mod_cast hcube 3
  · rw [← hone', hpower', one_mul]
  · obtain ⟨k, hk⟩ := hiff.mp hall π rfl
    have hhalf : (1 : ℝ) = k * 2 := by
      rw [← mul_assoc] at hk
      exact ((mul_eq_right₀ Real.pi_ne_zero).mp hk.symm).symm
    have hodd : (1 : ℤ) = k * 2 := by exact_mod_cast hhalf
    omega

/-- A Givens rotation by no angle with a phase of half a turn keeps its phase when it is squared, and
so is not squared. -/
theorem rotationPower_givensRotation :
    let g : TwoGate ℝ := .givensRotation 0 π
    ∃ (h : TwoGate ℝ) (U V : Matrix4 (Amplitude ℝ)),
      (numericTwoGate g 0 1).rotationPower (number 2) = .ok (numericTwoGate h 0 1) ∧
      (g.map number).evaluate = .ok U ∧ (h.map number).evaluate = .ok V ∧
      V.toMatrix ≠ U.toMatrix ^ 2 := by
  intro g
  have hshift {t : ℝ} (ht : t = 0) : (TwoGate.givensRotation t π).matrix.toMatrix =
      1 ⊗ₖ phaseShift π := by
    rw [TwoGate.givensRotation_toMatrix, ht, mul_zero, rotation_zero, parityBlocks_one, one_mul]
  have hsquare : phaseShift π * phaseShift π = 1 := by
    rw [← isOneParameter_phaseShift.map_add, phaseShift, turn_eq_one_iff.mpr ⟨1, by ring⟩,
      Matrix.one_fin_two]
  refine ⟨g.mapAngle (· * 2), _, _, rotationPower_numericTwoGate rfl 0 1 2,
    TwoGate.evaluate_map_number _, TwoGate.evaluate_map_number _, fun heq => ?_⟩
  have hone : (1 : Matrix (Fin 2) (Fin 2) ℂ) ⊗ₖ phaseShift π = 1 := by
    calc (1 : Matrix (Fin 2) (Fin 2) ℂ) ⊗ₖ phaseShift π
        = (TwoGate.givensRotation (0 * 2) π).matrix.toMatrix := (hshift (zero_mul 2)).symm
      _ = (TwoGate.givensRotation 0 π).matrix.toMatrix ^ 2 := heq
      _ = 1 := by rw [hshift rfl, pow_two, target_mul_target, hsquare, Matrix.one_kronecker_one]
  have hentry : ((1 : Matrix (Fin 2) (Fin 2) ℂ) ⊗ₖ phaseShift π) (0, 1) (0, 1) = 1 := by
    rw [hone, Matrix.one_apply_eq]
  have hminus : (-1 : ℂ) = 1 := by simpa [phaseShift, turn] using hentry
  norm_num at hminus

end Operation
end QuantumOps
