import QuantumOps.Proofs.Gate.Product

/-! The parts of a gate on one qubit have norm one, so that the matrix that they stand for is
unitary. It is the matrix of the gate, and that of the general gate with these parts. -/
namespace QuantumOps
open Complex (I)
open Scalar (number)
open scoped ComplexConjugate

theorem Amplitude.toComplex_injective : Function.Injective Amplitude.toComplex := by
  rintro ⟨x, y⟩ ⟨x', y'⟩ h
  obtain ⟨rfl, rfl⟩ := Complex.mk.inj h
  rfl

/-- Matrices with the same entries are the same. -/
theorem Pair.toMatrix_injective : Function.Injective Pair.toMatrix := by
  intro m n h
  apply Pair.ext_get
  intro i
  apply Pair.ext_get
  intro j
  exact Amplitude.toComplex_injective (congrFun₂ h i j)

namespace ExactParts

variable (p : ExactParts)

theorem matrix_mul_star : p.matrix * star p.matrix = (p.normSq : ℂ) • 1 := by
  have hphase : turn p.phase * conj (turn p.phase) = 1 := by
    rw [← turn_neg, ← turn_add, add_neg_cancel, turn_zero]
  rw [matrix, star_smul, smul_mul_smul_comm, Complex.star_def, hphase, one_smul]
  ext i j
  fin_cases i <;> fin_cases j <;>
    simp [Matrix.mul_apply, normSq, Complex.normSq_eq_conj_mul_self] <;> ring

/-- The matrix is unitary just when the parts have norm one. -/
theorem matrix_mem_unitaryGroup_iff : p.matrix ∈ Matrix.unitaryGroup (Fin 2) ℂ ↔ p.normSq = 1 := by
  rw [Matrix.mem_unitaryGroup_iff, matrix_mul_star]
  constructor
  · intro h
    have hentry : ((p.normSq : ℂ) • (1 : Matrix (Fin 2) (Fin 2) ℂ)) 0 0 = 1 := by
      rw [h, Matrix.one_apply_eq]
    simpa using hentry
  · intro h
    rw [h, Complex.ofReal_one, one_smul]

end ExactParts

namespace SingleGate

/-- The components of a general gate have squares that add up to one. -/
def IsNormalized : SingleGate ℝ → Prop
  | general ar ai br bi _ => ar ^ 2 + ai ^ 2 + br ^ 2 + bi ^ 2 = 1
  | _ => True

/-- The parts of all other gates have norm one for every choice of the parameters. -/
theorem normSq_eq_one {g : SingleGate ℝ} (h : g.IsNormalized) : g.normSq = 1 := by
  have hcircle (x : ℝ) : Real.cos x * Real.cos x + Real.sin x * Real.sin x = 1 := by
    rw [← sq, ← sq, Real.cos_sq_add_sin_sq]
  have hhalves : √2 / 2 * (√2 / 2) + √2 / 2 * (√2 / 2) = 1 := by
    rw [div_mul_div_comm, Real.mul_self_sqrt zero_le_two]
    norm_num
  rw [normSq_eq]
  cases g with
  | general ar ai br bi phase =>
    rw [IsNormalized] at h
    simp only [map, parts, Scalar.exact]
    linarith
  | rotateAroundSphericalAxis t polar azimuth =>
    simp only [map, parts, Scalar.exact, Scalar.divBy_number, Scalar.cos_number, Scalar.sin_number,
      Scalar.neg_number, Scalar.number_mul, Numeric.cos_real, Numeric.sin_real]
    linear_combination hcircle (t / 2) + Real.sin (t / 2) ^ 2 * hcircle polar +
      Real.sin (t / 2) ^ 2 * Real.sin polar ^ 2 * hcircle azimuth
  | rotateXY t p =>
    simp only [map, parts, Scalar.exact, Scalar.divBy_number, Scalar.cos_number, Scalar.sin_number,
      Scalar.neg_number, Scalar.number_mul, Numeric.cos_real, Numeric.sin_real, Numeric.zero_real]
    linear_combination hcircle (t / 2) + Real.sin (t / 2) ^ 2 * hcircle p
  | tGate =>
    simp only [map, parts, Scalar.exact, Numeric.cos_real, Numeric.sin_real, Numeric.zero_real]
    linear_combination hcircle (Numeric.pi / 8)
  | _ => simp [map, parts, Scalar.exact, hcircle, hhalves]

/-- A gate with numbers for parameters, the squares of which add up to one if it is the general one,
has the matrix that its parts stand for. The parts have norm one and the matrix is unitary, and the
general gate with these parts has the same matrix. -/
theorem evaluate_eq_parts (g : SingleGate ℝ) (h : g.IsNormalized) :
    ∃ (alpha beta : ℂ) (phase : ℝ) (U : Matrix2 (Amplitude ℝ)),
      (g.map number).parts =
        ⟨number alpha.re, number alpha.im, number beta.re, number beta.im, number phase⟩ ∧
      (g.map number).evaluate = .ok U ∧
      U.toMatrix = Complex.exp (phase * I) • !![alpha, -conj beta; beta, conj alpha] ∧
      Complex.normSq alpha + Complex.normSq beta = 1 ∧
      U.toMatrix ∈ Matrix.unitaryGroup (Fin 2) ℂ ∧
      (g.map number).parts.toGate.evaluate = .ok U := by
  have hnorm : g.exactParts.normSq = 1 := normSq_eq_one h
  obtain ⟨U, hU, hmatrix⟩ := evaluate_of_normSq (normSq_eq_one h)
  obtain ⟨V, hV, hmatrix'⟩ := evaluate_of_normSq (g := g.exactParts.toGate) hnorm
  obtain rfl : U = V := Pair.toMatrix_injective (hmatrix.trans hmatrix'.symm)
  refine ⟨_, _, _, U, g.parts_numbers, hU, hmatrix, hnorm, ?_, ?_⟩
  · rw [hmatrix]
    exact g.exactParts.matrix_mem_unitaryGroup_iff.mpr hnorm
  · rw [g.parts_numbers]
    exact hV

/-- A general gate with a phase of a quarter turn. -/
theorem evaluate_eq_parts_general :
    let g : SingleGate ℝ := general (3 / 5) 0 0 (4 / 5) (Real.pi / 2)
    g.IsNormalized ∧ ∃ U : Matrix2 (Amplitude ℝ), (g.map number).evaluate = .ok U ∧
      U.toMatrix ∈ Matrix.unitaryGroup (Fin 2) ℂ := by
  intro g
  have hg : g.IsNormalized := by
    change (3 / 5 : ℝ) ^ 2 + 0 ^ 2 + 0 ^ 2 + (4 / 5) ^ 2 = 1
    norm_num
  obtain ⟨_, _, _, U, _, hU, _, _, hunitary, _⟩ := evaluate_eq_parts g hg
  exact ⟨hg, U, hU, hunitary⟩

end SingleGate
end QuantumOps
