import QuantumOps.Proofs.Exact.Channel

/-! The generator of general noise is that of the Lindblad master equation, with the rates as
coefficients of the nine pairs of jump operators. -/
namespace QuantumOps
open scoped Kronecker Matrix

namespace Triple

variable {α : Type}

def get (v : Triple α) (i : Fin 3) : α := ![v.first, v.second, v.third] i

def transpose (m : Triple (Triple α)) : Triple (Triple α) :=
  ⟨m.map first, m.map second, m.map third⟩

/-- The matrix with the given rows. -/
def toMatrix (m : Triple (Triple α)) : Matrix (Fin 3) (Fin 3) α :=
  Matrix.of fun i j => (m.get i).get j

theorem toMatrix_transpose (m : Triple (Triple α)) : m.transpose.toMatrix = m.toMatrixᵀ := by
  ext i j
  fin_cases i <;> fin_cases j <;> rfl

end Triple

/-- What a pair of jump operators contributes to the change of a density matrix. -/
noncomputable def dissipator (A B ρ : Matrix (Fin 2) (Fin 2) ℂ) : Matrix (Fin 2) (Fin 2) ℂ :=
  A * ρ * Bᴴ - (1 / 2 : ℚ) • (Bᴴ * A * ρ + ρ * (Bᴴ * A))

/-- No probability is lost. -/
theorem trace_dissipator (A B ρ : Matrix (Fin 2) (Fin 2) ℂ) : (dissipator A B ρ).trace = 0 := by
  have hjump : (A * ρ * Bᴴ).trace = (Bᴴ * A * ρ).trace := by
    rw [Matrix.trace_mul_cycle]
  have hloss : (ρ * (Bᴴ * A)).trace = (Bᴴ * A * ρ).trace := Matrix.trace_mul_comm _ _
  rw [dissipator, Matrix.trace_sub, Matrix.trace_smul, Matrix.trace_add, hjump, hloss, Rat.smul_def]
  push_cast
  ring

/-- Transposing the density matrix exchanges real jump operators. -/
theorem transpose_dissipator {A B : Matrix (Fin 2) (Fin 2) ℂ} (hA : Aᴴ = Aᵀ) (hB : Bᴴ = Bᵀ)
    (ρ : Matrix (Fin 2) (Fin 2) ℂ) : (dissipator A B ρᵀ)ᵀ = dissipator B A ρ := by
  simp only [dissipator, hA, hB, Matrix.transpose_sub, Matrix.transpose_smul, Matrix.transpose_add,
    Matrix.transpose_mul, Matrix.transpose_transpose, mul_assoc, add_comm]

/-- The dissipator as a matrix. -/
noncomputable def dissipatorMatrix (A B : Matrix (Fin 2) (Fin 2) ℂ) : Matrix Both Both ℂ :=
  A ⊗ₖ Bᴴᵀ - (1 / 2 : ℚ) • ((Bᴴ * A) ⊗ₖ 1 + 1 ⊗ₖ (Bᴴ * A)ᵀ)

theorem dissipatorMatrix_mulVec_rows (A B ρ : Matrix (Fin 2) (Fin 2) ℂ) :
    dissipatorMatrix A B *ᵥ rows ρ = rows (dissipator A B ρ) := by
  simp only [dissipatorMatrix, dissipator, Matrix.sub_mulVec, Matrix.smul_mulVec, Matrix.add_mulVec,
    kronecker_mulVec_rows, Matrix.transpose_transpose, Matrix.transpose_one, mul_one, one_mul,
    map_sub, map_rat_smul, map_add]

/-- The entries of the dissipator, with those of both products written out. -/
theorem dissipatorMatrix_apply (A B : Matrix (Fin 2) (Fin 2) ℂ) (i j : Both) :
    dissipatorMatrix A B i j = A i.1 j.1 * star (B i.2 j.2) -
      1 / 2 *
        ((star (B 0 i.1) * A 0 j.1 + star (B 1 i.1) * A 1 j.1) * (if i.2 = j.2 then 1 else 0) +
          (if i.1 = j.1 then 1 else 0) * (star (B 0 j.2) * A 0 i.2 + star (B 1 j.2) * A 1 i.2)) := by
  simp only [dissipatorMatrix, Matrix.sub_apply, Matrix.smul_apply, Matrix.add_apply,
    Matrix.kroneckerMap_apply, Matrix.transpose_apply, Matrix.conjTranspose_apply, Matrix.mul_apply,
    Matrix.one_apply, Fin.sum_univ_two, Rat.smul_def]
  push_cast
  rfl

/-- The operators that lower, raise and dephase. -/
def jump : Fin 3 → Matrix (Fin 2) (Fin 2) ℂ := ![!![0, 1; 0, 0], !![0, 0; 1, 0], !![1, 0; 0, -1]]

theorem conjTranspose_jump (i : Fin 3) : (jump i)ᴴ = (jump i)ᵀ := by
  fin_cases i <;> ext j k <;> fin_cases j <;> fin_cases k <;> simp [jump]

/-- The right side of the master equation with the given rates. -/
noncomputable def lindbladian (rates : Matrix (Fin 3) (Fin 3) ℝ) (ρ : Matrix (Fin 2) (Fin 2) ℂ) :
    Matrix (Fin 2) (Fin 2) ℂ :=
  ∑ i, ∑ j, (rates i j : ℂ) • dissipator (jump i) (jump j) ρ

theorem trace_lindbladian (rates : Matrix (Fin 3) (Fin 3) ℝ) (ρ : Matrix (Fin 2) (Fin 2) ℂ) :
    (lindbladian rates ρ).trace = 0 := by
  simp only [lindbladian, Matrix.trace_sum, Matrix.trace_smul, trace_dissipator, smul_zero,
    Finset.sum_const_zero]

theorem transpose_lindbladian (rates : Matrix (Fin 3) (Fin 3) ℝ) (ρ : Matrix (Fin 2) (Fin 2) ℂ) :
    (lindbladian rates ρᵀ)ᵀ = lindbladian ratesᵀ ρ := by
  have hpair (i j : Fin 3) :
      (dissipator (jump i) (jump j) ρᵀ)ᵀ = dissipator (jump j) (jump i) ρ :=
    transpose_dissipator (conjTranspose_jump i) (conjTranspose_jump j) ρ
  simp only [lindbladian, Matrix.transpose_sum, Matrix.transpose_smul, hpair,
    Matrix.transpose_apply]
  exact Finset.sum_comm

namespace Noise
open Scalar (number)

/-- Each of the nine tables is the dissipator of its pair of jump operators. -/
theorem generators_toChannel (i j : Fin 3) :
    ((generators.get i).get j).toChannel = dissipatorMatrix (jump i) (jump j) := by
  -- The pair is looked up before the entries are compared, so that no goal holds all nine tables.
  fin_cases i <;> fin_cases j <;>
    simp only [generators, Triple.get, jump, Fin.zero_eta, Fin.mk_one, Fin.reduceFinMk,
      Matrix.cons_val] <;>
    rw [← Matrix.ext_iff] <;>
    simp only [Prod.forall, Fin.forall_fin_two, dissipatorMatrix_apply, Quad.toChannel, Quad.get,
      Matrix.of_apply, Matrix.cons_val] <;>
    simp <;> norm_num

theorem generator_toChannel (t : ℝ) (rates : Triple (Triple ℝ)) :
    (generator t rates).toChannel =
      ∑ i, ∑ j, ((t * rates.toMatrix i j : ℝ) : ℂ) • ((generators.get i).get j).toChannel := by
  simp only [generator, Triple.toList, List.zip_cons_cons, List.zip_nil_right, List.flatMap_cons,
    List.flatMap_nil, List.append_nil, List.cons_append, List.nil_append, List.foldl_cons,
    List.foldl_nil, Matrix4.toChannel_add, Matrix4.toChannel_scale, Matrix4.toChannel_zero,
    zero_add, Fin.sum_univ_three, add_assoc]
  rfl

/-- The generator is the right side of the master equation, over the gate time. -/
theorem generator_mulVec_rows (t : ℝ) (rates : Triple (Triple ℝ))
    (ρ : Matrix (Fin 2) (Fin 2) ℂ) :
    (generator t rates).toChannel *ᵥ rows ρ = rows ((t : ℂ) • lindbladian rates.toMatrix ρ) := by
  simp only [generator_toChannel, generators_toChannel, Matrix.sum_mulVec, Matrix.smul_mulVec,
    dissipatorMatrix_mulVec_rows, lindbladian, Finset.smul_sum, map_sum, map_smul, smul_smul,
    Complex.ofReal_mul]

/-- The swap of the entries off the diagonal turns the generator into that of the transposed
rates. -/
theorem generator_transpose (t : ℝ) (rates : Triple (Triple ℝ)) :
    (generator t rates.transpose).toChannel =
      exchange * (generator t rates).toChannel * exchange := by
  refine Matrix.ext_of_mulVec_single fun k => ?_
  obtain ⟨ρ, hρ⟩ := rows.surjective (Pi.single k 1)
  rw [← hρ, ← Matrix.mulVec_mulVec, ← Matrix.mulVec_mulVec, exchange_mulVec_rows,
    generator_mulVec_rows, generator_mulVec_rows, exchange_mulVec_rows, Matrix.transpose_smul,
    transpose_lindbladian, Triple.toMatrix_transpose]

/-- General noise over a gate time is the exponential of a matrix that acts on a density matrix as
the right side of the Lindblad master equation. What the matrix gives has no trace, and the exchange
of the entries off the diagonal turns the matrix into that of the transposed rates. -/
theorem superoperator_general (t : ℝ) (rates : Triple (Triple ℝ)) :
    ∃ G G' : Matrix4 ℝ, (general rates).superoperator (number t) = .ok (.exponential G) ∧
      (∀ ρ, G.toChannel *ᵥ rows ρ = rows ((t : ℂ) • ∑ i, ∑ j, (rates.toMatrix i j : ℂ) •
        (jump i * ρ * (jump j)ᴴ -
          (1 / 2 : ℚ) • ((jump j)ᴴ * jump i * ρ + ρ * ((jump j)ᴴ * jump i))))) ∧
      (∀ ρ, (rows.symm (G.toChannel *ᵥ rows ρ)).trace = 0) ∧
      (general rates.transpose).superoperator (number t) = .ok (.exponential G') ∧
      G'.toChannel = exchange * G.toChannel * exchange := by
  refine ⟨_, _, rfl, generator_mulVec_rows t rates, ?_, rfl, generator_transpose t rates⟩
  intro ρ
  rw [generator_mulVec_rows, LinearEquiv.symm_apply_apply, Matrix.trace_smul, trace_lindbladian,
    smul_zero]

end Noise
end QuantumOps
