import QuantumOps.Proofs.Channel.Lindblad
import QuantumOps.Proofs.Kak.Interaction

/-! General noise with diagonal rates. Its generator makes the populations relax to an equilibrium
and the coherences decay, and its exponential does so by the exponentials of the rates. For three
choices of the rates that is the channel of damping, dephasing and depolarising. -/
namespace QuantumOps
open scoped Matrix
open Matrix (diagonal)

/-- The second matrix is the exponential of the first. There is a basis of eigenvectors of the first
on which the second acts as the exponentials of the eigenvalues. -/
structure IsExponential (G C : Matrix Both Both ℂ) : Prop where
  exp_eq : NormedSpace.exp G = C
  eigenbasis : ∃ (b : Module.Basis Both ℂ (Both → ℂ)) (l : Both → ℂ), ∀ i,
    G *ᵥ b i = l i • b i ∧ C *ᵥ b i = Complex.exp (l i) • b i

section
variable {G C U V : Matrix Both Both ℂ} {l : Both → ℂ}

theorem mulVec_column (h : G * U = U * diagonal l) (i : Both) :
    G *ᵥ (U *ᵥ Pi.single i 1) = l i • (U *ᵥ Pi.single i 1) := by
  rw [Matrix.mulVec_mulVec, h, ← Matrix.mulVec_mulVec, Matrix.diagonal_mulVec_single, mul_one,
    ← Matrix.mulVec_smul, ← Pi.single_smul, smul_eq_mul, mul_one]

theorem exp_of_columns (hUV : U * V = 1) (hG : G * U = U * diagonal l)
    (hC : C * U = U * diagonal fun i => Complex.exp (l i)) : NormedSpace.exp G = C := by
  have hinv : U⁻¹ = V := Matrix.inv_eq_right_inv hUV
  have hconj {A D : Matrix Both Both ℂ} (h : A * U = U * D) : A = U * D * U⁻¹ := by
    rw [← h, mul_assoc, hinv, hUV, mul_one]
  have hexp : NormedSpace.exp l = fun i => Complex.exp (l i) := by
    rw [Pi.exp_def, Complex.exp_eq_exp_ℂ]
  rw [hconj hG, Matrix.exp_conj U _ (IsUnit.of_mul_eq_one V hUV), Matrix.exp_diagonal, hexp,
    ← hconj hC]

/-- The columns of an invertible matrix as eigenvectors. -/
theorem IsExponential.of_columns (hUV : U * V = 1) (hG : G * U = U * diagonal l)
    (hC : C * U = U * diagonal fun i => Complex.exp (l i)) : IsExponential G C := by
  have hVU : V * U = 1 := mul_eq_one_comm.mp hUV
  refine ⟨exp_of_columns hUV hG hC, (Pi.basisFun ℂ Both).map (Matrix.toLin'OfInv hVU hUV), l,
    fun i => ?_⟩
  rw [Module.Basis.map_apply, Pi.basisFun_apply]
  exact ⟨mulVec_column hG i, mulVec_column hC i⟩

end

/-- The matrix that has the equilibrium of the populations, their difference and the coherences as
eigenvectors, with the given eigenvalues. -/
noncomputable def relaxation (p q : ℝ) (u x y : ℂ) : Matrix Both Both ℂ :=
  parityBlocks !![p * u + q * x, p * u - p * x; q * u - q * x, q * u + p * x] (y • 1)

section
variable {p q : ℝ} (u x y : ℂ)

/-- The eigenvalues in the order of the columns. -/
def levels : Both → ℂ := fun i => if i.1 = i.2 then ![u, x] i.1 else y

theorem diagonal_levels : diagonal (levels u x y) = parityBlocks !![u, 0; 0, x] (y • 1) := by
  ext ⟨i, j⟩ ⟨k, l⟩
  fin_cases i <;> fin_cases j <;> fin_cases k <;> fin_cases l <;>
    simp [levels, parityBlocks, Matrix.diagonal]

theorem exp_levels : (fun i => Complex.exp (levels u x y i)) =
    levels (Complex.exp u) (Complex.exp x) (Complex.exp y) := by
  ext ⟨i, j⟩
  fin_cases i <;> fin_cases j <;> simp [levels]

theorem relaxation_mul (h : p + q = 1) :
    relaxation p q u x y * parityBlocks !![(p : ℂ), 1; q, -1] 1 =
      parityBlocks !![(p : ℂ), 1; q, -1] 1 * diagonal (levels u x y) := by
  obtain rfl : q = 1 - p := eq_sub_of_add_eq' h
  rw [relaxation, diagonal_levels, parityBlocks_mul, parityBlocks_mul, mul_one, one_mul]
  congr 1
  ext i j
  fin_cases i <;> fin_cases j <;> simp <;> ring

theorem isExponential_relaxation (h : p + q = 1) :
    IsExponential (relaxation p q 0 x y) (relaxation p q 1 (Complex.exp x) (Complex.exp y)) := by
  refine .of_columns (V := parityBlocks !![1, 1; (q : ℂ), -p] 1) ?_ (relaxation_mul 0 x y h) ?_
  · rw [parityBlocks_mul, ← parityBlocks_one, mul_one]
    congr 1
    obtain rfl : q = 1 - p := eq_sub_of_add_eq' h
    ext i j
    fin_cases i <;> fin_cases j <;> simp
  · rw [exp_levels, Complex.exp_zero]
    exact relaxation_mul 1 _ _ h

end

theorem toChannel_eq_parityBlocks {z : ℝ} (hz : z = 0) (e₁ e₂ e₃ e₄ x y : ℝ) :
    Quad.toChannel ⟨⟨e₁, z, z, e₂⟩, ⟨z, x, z, z⟩, ⟨z, z, y, z⟩, ⟨e₃, z, z, e₄⟩⟩ =
      parityBlocks !![(e₁ : ℂ), e₂; e₃, e₄] !![(x : ℂ), 0; 0, y] := by
  ext ⟨i, j⟩ ⟨k, l⟩
  fin_cases i <;> fin_cases j <;> fin_cases k <;> fin_cases l <;>
    simp [Quad.toChannel, Quad.get, parityBlocks, hz]

/-- Rates without a coupling of different operators. -/
def Triple.diagonal (a b c : ℝ) : Triple (Triple ℝ) := ⟨⟨a, 0, 0⟩, ⟨0, b, 0⟩, ⟨0, 0, c⟩⟩

namespace Noise
open Scalar (number)

theorem generators_diagonal :
    generators.first.first.toChannel = parityBlocks !![0, 1; 0, -1] !![-2⁻¹, 0; 0, -2⁻¹] ∧
    generators.second.second.toChannel = parityBlocks !![-1, 0; 1, 0] !![-2⁻¹, 0; 0, -2⁻¹] ∧
    generators.third.third.toChannel = parityBlocks !![0, 0; 0, 0] !![-2, 0; 0, -2] := by
  simp [generators, toChannel_eq_parityBlocks rfl]

theorem generator_diagonal (t a b c : ℝ) : (generator t (Triple.diagonal a b c)).toChannel =
    parityBlocks !![-(t * b : ℂ), t * a; t * b, -(t * a)]
      (-(t * ((a + b) / 2 + 2 * c) : ℂ) • 1) := by
  obtain ⟨hlower, hraise, hdephase⟩ := generators_diagonal
  have hsum : (generator t (Triple.diagonal a b c)).toChannel =
      (t * a : ℂ) • (generators.first.first.toChannel : Matrix Both Both ℂ) +
        (t * b : ℂ) • generators.second.second.toChannel +
        (t * c : ℂ) • generators.third.third.toChannel := by
    rw [generator_toChannel]
    simp [Fin.sum_univ_three, Triple.toMatrix, Triple.diagonal, Triple.get]
  rw [hsum, hlower, hraise, hdephase]
  simp only [smul_parityBlocks, add_parityBlocks]
  congr 1
  · ext i j
    fin_cases i <;> fin_cases j <;> simp
  · ext i j
    fin_cases i <;> fin_cases j <;> simp <;> ring

/-- The populations relax at the sum of the rates that lower and raise, to their shares in it. -/
theorem generator_relaxation (t p q u c : ℝ) (h : p + q = 1) :
    (generator t (Triple.diagonal (p * u) (q * u) c)).toChannel =
      relaxation p q 0 (-(t * u)) (-(t * (u / 2 + 2 * c))) := by
  obtain rfl : q = 1 - p := eq_sub_of_add_eq' h
  rw [generator_diagonal, relaxation]
  congr 1
  · ext i j
    fin_cases i <;> fin_cases j <;> simp <;> ring
  · congr 1
    push_cast
    ring

theorem dampingChannel_toChannel (t r : ℝ) : (dampingChannel t r).toChannel =
    relaxation 1 0 1 (Complex.exp (-(t * r))) (Complex.exp (-(t * r) / 2)) := by
  rw [dampingChannel, toChannel_eq_parityBlocks Numeric.zero_real, relaxation]
  congr 1
  · ext i j
    fin_cases i <;> fin_cases j <;> simp
  · ext i j
    fin_cases i <;> fin_cases j <;> simp

theorem dephasingChannel_toChannel (t r : ℝ) :
    (dephasingChannel (dephasingProbability t r)).toChannel =
      relaxation 1 0 1 (Complex.exp 0) (Complex.exp (-(2 * t * r))) := by
  rw [dephasingChannel, toChannel_eq_parityBlocks Numeric.zero_real, relaxation]
  congr 1
  · ext i j
    fin_cases i <;> fin_cases j <;> simp
  · ext i j
    fin_cases i <;> fin_cases j <;> simp [dephasingProbability]

theorem depolarisingChannel_toChannel (t r : ℝ) : (depolarisingChannel t r).toChannel =
    relaxation 2⁻¹ 2⁻¹ 1 (Complex.exp (-(t * r))) (Complex.exp (-(t * r))) := by
  rw [depolarisingChannel, toChannel_eq_parityBlocks Numeric.zero_real, relaxation]
  congr 1
  · ext i j
    fin_cases i <;> fin_cases j <;> simp
  · ext i j
    fin_cases i <;> fin_cases j <;> simp

/-- Noise of a kind whose channel in closed form is the exponential of the generator of general
noise with the given rates. -/
def Solves (kind : Noise ℝ) (rates : Triple (Triple ℝ)) (t : ℝ) : Prop :=
  ∃ G C : Matrix4 ℝ, (general rates).superoperator (number t) = .ok (.exponential G) ∧
    kind.superoperator (number t) = .ok (.closed C) ∧ IsExponential G.toChannel C.toChannel

theorem Solves.of_relaxation {kind : Noise ℝ} {t p q a b c : ℝ} {C : Matrix4 ℝ} {x y : ℂ}
    (hkind : kind.superoperator (number t) = .ok (.closed C))
    (hC : C.toChannel = relaxation p q 1 (Complex.exp x) (Complex.exp y)) (h : p + q = 1)
    (hbalance : q * a = p * b) (hx : x = -(t * (a + b))) (hy : y = -(t * ((a + b) / 2 + 2 * c))) :
    kind.Solves (Triple.diagonal a b c) t := by
  have ha : p * (a + b) = a := by linear_combination a * h - hbalance
  have hb : q * (a + b) = b := by linear_combination b * h + hbalance
  have hG := generator_relaxation t p q (a + b) c h
  rw [ha, hb, Complex.ofReal_add, ← hx, ← hy] at hG
  refine ⟨_, C, rfl, hkind, ?_⟩
  rw [hG, hC]
  exact isExponential_relaxation x y h

/-- The channels in closed form are solutions of the master equation: damping where only the
operator that lowers has a rate, dephasing where only the one that dephases has, and depolarising
where the three have one half, one half and one quarter of its rate. -/
theorem closed_solves (t r : ℝ) :
    (damping (number r)).Solves (Triple.diagonal r 0 0) t ∧
    (dephasing (number r)).Solves (Triple.diagonal 0 0 r) t ∧
    (depolarising (number r)).Solves (Triple.diagonal (r / 2) (r / 2) (r / 4)) t := by
  refine ⟨.of_relaxation rfl (dampingChannel_toChannel t r) ?_ ?_ ?_ ?_,
    .of_relaxation rfl (dephasingChannel_toChannel t r) ?_ ?_ ?_ ?_,
    .of_relaxation rfl (depolarisingChannel_toChannel t r) ?_ ?_ ?_ ?_⟩
  all_goals push_cast; ring

end Noise

end QuantumOps
