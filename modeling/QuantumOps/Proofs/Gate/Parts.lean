import Mathlib
import QuantumOps.Gate.Parts
import QuantumOps.Gate.SingleMatrix
import QuantumOps.Proofs.Exact.Matrix

/-! The parts of gates with exact numbers for parameters: two complex numbers and an angle. The
matrix that they stand for is that of the gate, and their product stands for the product of the
matrices. -/
namespace QuantumOps
open Complex (I)
open Scalar (number)
open scoped ComplexConjugate

namespace ComplexScalar

def ofComplex (z : ℂ) : ComplexScalar ℝ := ⟨number z.re, number z.im⟩

variable (z w : ℂ)

theorem conj_ofComplex : (ofComplex z).conj = ofComplex (conj z) := rfl

theorem ofComplex_add : ofComplex z + ofComplex w = ofComplex (z + w) := rfl

theorem ofComplex_sub : ofComplex z - ofComplex w = ofComplex (z - w) := rfl

theorem ofComplex_mul : ofComplex z * ofComplex w = ofComplex (z * w) := rfl

end ComplexScalar

/-- Parts that are numbers. -/
@[ext] structure ExactParts where
  alpha : ℂ
  beta : ℂ
  phase : ℝ

namespace ExactParts

def toParts (p : ExactParts) : GateParts ℝ :=
  ⟨number p.alpha.re, number p.alpha.im, number p.beta.re, number p.beta.im, number p.phase⟩

def toGate (p : ExactParts) : SingleGate ℝ :=
  .general p.alpha.re p.alpha.im p.beta.re p.beta.im p.phase

/-- The matrix that the parts stand for. -/
noncomputable def matrix (p : ExactParts) : Matrix (Fin 2) (Fin 2) ℂ :=
  turn p.phase • !![p.alpha, -conj p.beta; p.beta, conj p.alpha]

/-- The squared norm, which is one for unitary matrices. -/
def normSq (p : ExactParts) : ℝ := Complex.normSq p.alpha + Complex.normSq p.beta

/-- Both complex numbers divided by a real one. -/
noncomputable def divBy (p : ExactParts) (x : ℝ) : ExactParts :=
  ⟨p.alpha / x, p.beta / x, p.phase⟩

/-- The parts of the product. -/
noncomputable def product (p q : ExactParts) : ExactParts where
  alpha := p.alpha * q.alpha - conj p.beta * q.beta
  beta := p.beta * q.alpha + q.beta * conj p.alpha
  phase := p.phase + q.phase

variable (p q r : ExactParts)

theorem toParts_product : p.toParts.product q.toParts = (p.product q).toParts := by
  have halpha (r : ExactParts) : r.toParts.alpha = .ofComplex r.alpha := rfl
  have hbeta (r : ExactParts) : r.toParts.beta = .ofComplex r.beta := rfl
  simp only [GateParts.product, halpha, hbeta, ComplexScalar.ofComplex_mul,
    ComplexScalar.ofComplex_add, ComplexScalar.ofComplex_sub, ComplexScalar.conj_ofComplex]
  rfl

@[simp] theorem product_alpha :
    (p.product q).alpha = p.alpha * q.alpha - conj p.beta * q.beta := rfl

@[simp] theorem product_beta : (p.product q).beta = p.beta * q.alpha + q.beta * conj p.alpha := rfl

@[simp] theorem product_phase : (p.product q).phase = p.phase + q.phase := rfl

theorem product_assoc : (p.product q).product r = p.product (q.product r) := by
  apply ExactParts.ext
  · simp only [product_alpha, product_beta, map_add, map_mul, Complex.conj_conj]
    ring
  · simp only [product_alpha, product_beta, map_sub, map_mul, Complex.conj_conj]
    ring
  · exact add_assoc _ _ _

theorem matrix_product : (p.product q).matrix = p.matrix * q.matrix := by
  rw [matrix, matrix, matrix, smul_mul_smul_comm, ← turn_add]
  congr 1
  ext i j
  fin_cases i <;> fin_cases j <;> simp <;> ring

theorem normSq_nonneg : 0 ≤ p.normSq :=
  add_nonneg (Complex.normSq_nonneg _) (Complex.normSq_nonneg _)

theorem normSq_product : (p.product q).normSq = p.normSq * q.normSq := by
  simp [normSq, Complex.normSq_apply]
  ring

theorem matrix_divBy (x : ℝ) : (p.divBy x).matrix = (x⁻¹ : ℂ) • p.matrix := by
  simp only [matrix, divBy, smul_comm (x⁻¹ : ℂ)]
  congr 1
  ext i j
  fin_cases i <;> fin_cases j <;> simp [div_eq_inv_mul]

theorem normSq_divBy (x : ℝ) : (p.divBy x).normSq = p.normSq / (x * x) := by
  simp [normSq, divBy, add_div]

theorem matrix_mk (ar ai br bi phase : ℝ) : (ExactParts.mk ⟨ar, ai⟩ ⟨br, bi⟩ phase).matrix =
    turn phase • !![ar + ai * I, -br + bi * I; br + bi * I, ar - ai * I] := by
  rw [matrix]
  congr 1
  ext i j
  fin_cases i <;> fin_cases j <;> simp [Complex.ext_iff]

theorem matrix_lower (a : ℝ) :
    (ExactParts.mk (turn (-a)) 0 a).matrix = !![1, 0; 0, turn (a + a)] := by
  ext i j
  fin_cases i <;> fin_cases j <;> simp [matrix, ← turn_neg, ← turn_add]

theorem matrix_upper (a : ℝ) :
    (ExactParts.mk (turn a) 0 a).matrix = !![turn (a + a), 0; 0, 1] := by
  ext i j
  fin_cases i <;> fin_cases j <;> simp [matrix, ← turn_neg, ← turn_add]

end ExactParts

theorem Pair.toMatrix_mk (a b c d : Amplitude ℝ) : Pair.toMatrix ⟨⟨a, b⟩, ⟨c, d⟩⟩ =
    !![a.toComplex, b.toComplex; c.toComplex, d.toComplex] := by
  ext i j
  fin_cases i <;> fin_cases j <;> rfl

/-- The value of a scalar that is a number. -/
def Scalar.exact : Scalar ℝ → ℝ
  | number x => x
  | symbol _ => 0

def GateParts.exact (p : GateParts ℝ) : ExactParts :=
  ⟨⟨p.alphaR.exact, p.alphaI.exact⟩, ⟨p.betaR.exact, p.betaI.exact⟩, p.globalPhase.exact⟩

namespace SingleGate

/-- The parts of a gate with numbers for parameters. -/
noncomputable def exactParts (g : SingleGate ℝ) : ExactParts := (g.map number).parts.exact

/-- The squared norm of the parts. -/
noncomputable def normSq (g : SingleGate ℝ) : ℝ := g.exactParts.normSq

theorem normSq_eq (g : SingleGate ℝ) : g.normSq =
    (g.map number).parts.alphaR.exact * (g.map number).parts.alphaR.exact +
      (g.map number).parts.alphaI.exact * (g.map number).parts.alphaI.exact +
      ((g.map number).parts.betaR.exact * (g.map number).parts.betaR.exact +
        (g.map number).parts.betaI.exact * (g.map number).parts.betaI.exact) := rfl

theorem exactParts_toGate (p : ExactParts) : p.toGate.exactParts = p := rfl

theorem normSq_toGate (p : ExactParts) : p.toGate.normSq = p.normSq := rfl

theorem parts_numbers (g : SingleGate ℝ) : (g.map number).parts = g.exactParts.toParts := by
  cases g <;> rfl

/-! Gates that shift the phase of one state have half of the shift as their phase. -/

theorem exactParts_phaseShiftState1 (t : ℝ) :
    (phaseShiftState1 t).exactParts = ⟨turn (-(t / 2)), 0, t / 2⟩ := by
  simp [exactParts, GateParts.exact, Scalar.exact, parts, map, ExactParts.ext_iff, Complex.ext_iff]

theorem exactParts_phaseShiftState0 (t : ℝ) :
    (phaseShiftState0 t).exactParts = ⟨turn (t / 2), 0, t / 2⟩ := by
  simp [exactParts, GateParts.exact, Scalar.exact, parts, map, ExactParts.ext_iff, Complex.ext_iff]

theorem exactParts_sGate : sGate.exactParts = ⟨turn (-(Real.pi / 4)), 0, Real.pi / 4⟩ := by
  simp [exactParts, GateParts.exact, Scalar.exact, parts, map, ExactParts.ext_iff, Complex.ext_iff]

theorem exactParts_tGate : tGate.exactParts = ⟨turn (-(Real.pi / 8)), 0, Real.pi / 8⟩ := by
  simp [exactParts, GateParts.exact, Scalar.exact, parts, map, ExactParts.ext_iff, Complex.ext_iff]

theorem turn_half_pi : turn (Real.pi / 2) = I := by
  simp [turn_eq]

/-- The matrix of a gate is the one that its parts stand for. -/
theorem toMatrix_matrix (g : SingleGate ℝ) : g.matrix.toMatrix = g.exactParts.matrix := by
  have hI (x : ℂ) : I * (x * I) = -x := by
    rw [mul_left_comm, Complex.I_mul_I, mul_neg_one]
  cases g with
  | phaseShiftState1 t =>
    rw [exactParts_phaseShiftState1, ExactParts.matrix_lower, add_halves, matrix,
      Pair.toMatrix_mk, Amplitude.toComplex_phase]
    simp
  | phaseShiftState0 t =>
    rw [exactParts_phaseShiftState0, ExactParts.matrix_upper, add_halves, matrix,
      Pair.toMatrix_mk, Amplitude.toComplex_phase]
    simp
  | sGate =>
    have hquarter : Real.pi / 4 + Real.pi / 4 = Real.pi / 2 := by ring
    rw [exactParts_sGate, ExactParts.matrix_lower, hquarter, turn_half_pi, matrix,
      Pair.toMatrix_mk]
    simp
  | tGate =>
    have heighth : Real.pi / 8 + Real.pi / 8 = Real.pi / 4 := by ring
    rw [exactParts_tGate, ExactParts.matrix_lower, heighth, matrix, Pair.toMatrix_mk,
      Amplitude.toComplex_phase]
    simp
  | general ar ai br bi phase =>
    rw [matrix, Pair.toMatrix_mk, exactParts, map, parts, GateParts.exact, ExactParts.matrix_mk]
    ext i j
    fin_cases i <;> fin_cases j <;>
      simp [Amplitude.toComplex_mul, Amplitude.toComplex_phase, Amplitude.toComplex_conj,
        Scalar.exact, sub_eq_add_neg, add_comm]
  | _ =>
    -- The phase of these gates is zero or a quarter turn, which multiplies by `I`.
    rw [matrix, Pair.toMatrix_mk, exactParts, map, parts, GateParts.exact, ExactParts.matrix_mk]
    ext i j
    fin_cases i <;> fin_cases j <;>
      simp [Scalar.exact, turn_half_pi, hI, -Complex.ofReal_cos, -Complex.ofReal_sin,
        -Complex.ofReal_div] <;> ring

end SingleGate
end QuantumOps
