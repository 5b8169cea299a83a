import QuantumOps.Proofs.Gate.Parts
import QuantumOps.Proofs.Kak.Local

/-! The product of gates on one qubit, with exact numbers. It is formed on the parts of the gates
and stands for the product of their matrices, divided by its norm where that is not one up to
rounding. -/
namespace QuantumOps
open Scalar (number)

namespace ExactParts

/-- Parts divided by their norm, if that differs from one by more than the distance to the next
double. -/
noncomputable def normalized (p : ExactParts) : ExactParts :=
  if Numeric.epsilon < |√p.normSq - 1| then p.divBy √p.normSq else p

variable {p : ExactParts}

theorem toParts_normalized : p.toParts.normalized = p.normalized.toParts := by
  have hnorm : p.alpha.re * p.alpha.re + p.alpha.im * p.alpha.im + p.beta.re * p.beta.re +
      p.beta.im * p.beta.im = p.normSq := by
    rw [normSq, Complex.normSq_apply, Complex.normSq_apply]
    ring
  simp only [toParts, GateParts.normalized, hnorm, Numeric.lt_real, Numeric.abs_real,
    Numeric.sqrt_real, Numeric.one_real, decide_eq_true_eq]
  rw [normalized]
  split
  · simp [divBy]
  · rfl

theorem matrix_normalized : p.normalized.matrix =
    if Numeric.epsilon < |√p.normSq - 1| then (√p.normSq : ℂ)⁻¹ • p.matrix else p.matrix := by
  rw [normalized]
  split
  · exact p.matrix_divBy _
  · rfl

theorem normSq_normalized (h : p.normSq ≠ 0) : p.normalized.normSq =
    if Numeric.epsilon < |√p.normSq - 1| then 1 else p.normSq := by
  rw [normalized]
  split
  · rw [p.normSq_divBy, Real.mul_self_sqrt p.normSq_nonneg, div_self h]
  · rfl

theorem phase_normalized : p.normalized.phase = p.phase := by
  rw [normalized]
  split <;> rfl

theorem normalized_of_normSq (h : p.normSq = 1) : p.normalized = p := by
  rw [normalized, h, Real.sqrt_one, sub_self, abs_zero]
  refine if_neg (not_lt.mpr ?_)
  rw [Numeric.epsilon]
  simp

end ExactParts

namespace SingleGate

/-- The product of gates with numbers for parameters has numbers for parameters. -/
theorem mul_numbers (g h : SingleGate ℝ) : (g.map number).mul (h.map number) =
    (g.exactParts.product h.exactParts).normalized.toGate.map number := by
  rw [mul, g.parts_numbers, h.parts_numbers, ExactParts.toParts_product,
    ExactParts.toParts_normalized]
  rfl

theorem normSq_product (g h : SingleGate ℝ) :
    (g.exactParts.product h.exactParts).normSq = g.normSq * h.normSq :=
  ExactParts.normSq_product _ _

/-- A gate with squared norm one is unitary, and has the matrix that its parts stand for. -/
theorem evaluate_of_normSq {g : SingleGate ℝ} (h : g.normSq = 1) :
    ∃ U, (g.map number).evaluate = .ok U ∧ U.toMatrix = g.exactParts.matrix := by
  refine ⟨g.matrix, evaluate_numbers ?_, g.toMatrix_matrix⟩
  cases g with
  | general ar ai br bi phase =>
    have hnorm : ar * ar + ai * ai + br * br + bi * bi = 1 := by
      rw [normSq, ExactParts.normSq, Complex.normSq_apply, Complex.normSq_apply, ← add_assoc] at h
      exact h
    have hzero : ¬(((ar = 0 ∧ ai = 0) ∧ br = 0) ∧ bi = 0) := by
      rintro ⟨⟨⟨rfl, rfl⟩, rfl⟩, rfl⟩
      simp at hnorm
    have htolerance : ¬(Numeric.unitaryTolerance : ℝ) < 0 := by
      rw [Numeric.unitaryTolerance]
      simp
    simp [notUnitary?, hnorm, hzero, htolerance]
  | _ => rfl

end SingleGate

namespace Operation

/-- A gate with numbers for parameters on a qubit. -/
def numericGate (g : SingleGate ℝ) (q : ℕ) : Operation ℝ := record (.singleQubit (g.map number) q)

section
variable {R : Type} [Numeric R] {g h : SingleGate (Scalar R)} {p q : ℕ}

theorem mul_sameQubit : (record (.singleQubit g q)).mul (record (.singleQubit h q)) =
    .ok (record (.singleQubit (g.mul h) q)) :=
  if_pos rfl

theorem mul_eq_error_iff {e : Failure R} :
    (record (.singleQubit g p)).mul (record (.singleQubit h q)) = .error e ↔
      p ≠ q ∧ e = .differentQubits ⟨p, q⟩ := by
  by_cases hpq : p = q
  · rw [hpq, mul_sameQubit]
    simp
  · have herror : (record (.singleQubit g p)).mul (record (.singleQubit h q)) =
        .error (.differentQubits ⟨p, q⟩) := if_neg hpq
    rw [herror, Except.error.injEq, eq_comm, and_iff_right hpq]

end

variable {g h : SingleGate ℝ} {q : ℕ}

theorem mul_numericGate : (numericGate g q).mul (numericGate h q) =
    .ok (numericGate (g.exactParts.product h.exactParts).normalized.toGate q) := by
  rw [numericGate, numericGate, numericGate, ← SingleGate.mul_numbers]
  exact mul_sameQubit

theorem mul_numericGate_of_normSq (hg : g.normSq = 1) (hh : h.normSq = 1) :
    (numericGate g q).mul (numericGate h q) =
      .ok (numericGate (g.exactParts.product h.exactParts).toGate q) := by
  have hproduct : (g.exactParts.product h.exactParts).normSq = 1 := by
    rw [SingleGate.normSq_product, hg, hh, one_mul]
  rw [mul_numericGate, ExactParts.normalized_of_normSq hproduct]

/-- The product of gates with numbers for parameters stands for the product of their matrices,
divided by its norm just where that is not one up to rounding, on the same qubit and with the sum of
the phases. Of gates with norm one it is the product of the unitary matrices, and it is associative.
Gates on different qubits are refused with both qubits. -/
theorem mul_exact :
    (∀ g : SingleGate ℝ, (g.map number).parts = g.exactParts.toParts) ∧
    (∀ (g h : SingleGate ℝ) (q : ℕ), g.normSq ≠ 0 → h.normSq ≠ 0 →
      ∃ k : SingleGate ℝ, (numericGate g q).mul (numericGate h q) = .ok (numericGate k q) ∧
        k.exactParts.phase = g.exactParts.phase + h.exactParts.phase ∧
        if Numeric.epsilon < |√(g.normSq * h.normSq) - 1|
        then k.exactParts.matrix = (√(g.normSq * h.normSq) : ℂ)⁻¹ •
          (g.exactParts.matrix * h.exactParts.matrix) ∧ k.normSq = 1
        else k.exactParts.matrix = g.exactParts.matrix * h.exactParts.matrix ∧
          k.normSq = g.normSq * h.normSq) ∧
    (∀ (g h : SingleGate ℝ) (q : ℕ), g.normSq = 1 → h.normSq = 1 →
      ∃ (k : SingleGate ℝ) (U V W : Matrix2 (Amplitude ℝ)),
        (numericGate g q).mul (numericGate h q) = .ok (numericGate k q) ∧
        (g.map number).evaluate = .ok U ∧ (h.map number).evaluate = .ok V ∧
        (k.map number).evaluate = .ok W ∧ W.toMatrix = U.toMatrix * V.toMatrix ∧
        W.toMatrix = k.exactParts.matrix ∧ k.normSq = 1) ∧
    (∀ (a b c : SingleGate ℝ) (q : ℕ), a.normSq = 1 → b.normSq = 1 → c.normSq = 1 →
      ∃ ab bc abc : Operation ℝ,
        (numericGate a q).mul (numericGate b q) = .ok ab ∧
        (numericGate b q).mul (numericGate c q) = .ok bc ∧
        ab.mul (numericGate c q) = .ok abc ∧ (numericGate a q).mul bc = .ok abc) ∧
    ∀ (g h : SingleGate (Scalar ℝ)) (p q : ℕ) (e : Failure ℝ),
      (record (.singleQubit g p)).mul (record (.singleQubit h q)) = .error e ↔
        p ≠ q ∧ e = .differentQubits ⟨p, q⟩ := by
  refine ⟨SingleGate.parts_numbers, ?_, ?_, ?_, fun _ _ _ _ _ => mul_eq_error_iff⟩
  · intro g h q hg hh
    have hproduct : (g.exactParts.product h.exactParts).normSq ≠ 0 := by
      rw [SingleGate.normSq_product]
      exact mul_ne_zero hg hh
    refine ⟨_, mul_numericGate, ExactParts.phase_normalized, ?_⟩
    rw [SingleGate.normSq_toGate, SingleGate.exactParts_toGate, ExactParts.matrix_normalized,
      ExactParts.normSq_normalized hproduct, SingleGate.normSq_product, ExactParts.matrix_product]
    split
    · exact ⟨rfl, rfl⟩
    · exact ⟨rfl, rfl⟩
  · intro g h q hg hh
    have hk : (g.exactParts.product h.exactParts).toGate.normSq = 1 := by
      rw [SingleGate.normSq_toGate, SingleGate.normSq_product, hg, hh, one_mul]
    obtain ⟨U, hU, hUmatrix⟩ := SingleGate.evaluate_of_normSq hg
    obtain ⟨V, hV, hVmatrix⟩ := SingleGate.evaluate_of_normSq hh
    obtain ⟨W, hW, hWmatrix⟩ := SingleGate.evaluate_of_normSq hk
    refine ⟨_, U, V, W, mul_numericGate_of_normSq hg hh, hU, hV, hW, ?_, hWmatrix, hk⟩
    rw [hWmatrix, hUmatrix, hVmatrix, SingleGate.exactParts_toGate, ExactParts.matrix_product]
  · intro a b c q ha hb hc
    have hab : (a.exactParts.product b.exactParts).toGate.normSq = 1 := by
      rw [SingleGate.normSq_toGate, SingleGate.normSq_product, ha, hb, one_mul]
    have hbc : (b.exactParts.product c.exactParts).toGate.normSq = 1 := by
      rw [SingleGate.normSq_toGate, SingleGate.normSq_product, hb, hc, one_mul]
    refine ⟨_, _, _, mul_numericGate_of_normSq ha hb, mul_numericGate_of_normSq hb hc,
      mul_numericGate_of_normSq hab hc, ?_⟩
    rw [mul_numericGate_of_normSq ha hbc, SingleGate.exactParts_toGate,
      SingleGate.exactParts_toGate, ExactParts.product_assoc]

/-- Twice the identity is made unitary, and gates with norm one are multiplied as they are. -/
theorem mul_exact_hadamard :
    let double : SingleGate ℝ := .general 2 0 0 0 0
    (∃ k, (numericGate double 1).mul (numericGate .pauliZ 1) = .ok (numericGate k 1) ∧
      k.normSq = 1) ∧
    (∃ (k : SingleGate ℝ) (U V W : Matrix2 (Amplitude ℝ)),
      (numericGate .hadamard 1).mul (numericGate .pauliZ 1) = .ok (numericGate k 1) ∧
      (SingleGate.hadamard.map number).evaluate = .ok U ∧
      (SingleGate.pauliZ.map number).evaluate = .ok V ∧ (k.map number).evaluate = .ok W ∧
      W.toMatrix = U.toMatrix * V.toMatrix) ∧
    ∃ hz zy hzy : Operation ℝ,
      (numericGate .hadamard 1).mul (numericGate .pauliZ 1) = .ok hz ∧
      (numericGate .pauliZ 1).mul (numericGate .pauliY 1) = .ok zy ∧
      hz.mul (numericGate .pauliY 1) = .ok hzy ∧ (numericGate .hadamard 1).mul zy = .ok hzy := by
  intro double
  have hdouble : double.normSq = 2 * 2 := by
    change (2 : ℝ) * 2 + 0 * 0 + (0 * 0 + 0 * 0) = _
    ring
  have hhalves : √2 / 2 * (√2 / 2) + √2 / 2 * (√2 / 2) = 1 := by
    rw [div_mul_div_comm, Real.mul_self_sqrt zero_le_two]
    norm_num
  have hhadamard : SingleGate.hadamard.normSq = 1 := by
    simp [SingleGate.normSq_eq, SingleGate.map, SingleGate.parts, Scalar.exact, hhalves]
  have hz : SingleGate.pauliZ.normSq = 1 := by
    simp [SingleGate.normSq_eq, SingleGate.map, SingleGate.parts, Scalar.exact]
  have hy : SingleGate.pauliY.normSq = 1 := by
    simp [SingleGate.normSq_eq, SingleGate.map, SingleGate.parts, Scalar.exact]
  have hnorm : Numeric.epsilon < |√(2 * 2 * 1 : ℝ) - 1| := by
    rw [mul_one, Real.sqrt_mul_self zero_le_two]
    change ((1 : ℕ) : ℝ) / (4503599627370496 : ℕ) < _
    norm_num
  obtain ⟨-, hscaled, hunitary, hassoc, -⟩ := mul_exact
  refine ⟨?_, ?_, hassoc _ _ _ 1 hhadamard hz hy⟩
  · obtain ⟨k, hk, -, hmatrix⟩ := hscaled double .pauliZ 1 (by simp [hdouble]) (by simp [hz])
    rw [hdouble, hz, if_pos hnorm] at hmatrix
    exact ⟨k, hk, hmatrix.2⟩
  · obtain ⟨k, U, V, W, hk, hU, hV, hW, hmatrix, -⟩ := hunitary _ _ 1 hhadamard hz
    exact ⟨k, U, V, W, hk, hU, hV, hW, hmatrix⟩

end Operation

end QuantumOps
