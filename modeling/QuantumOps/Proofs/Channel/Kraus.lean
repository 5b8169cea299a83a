import QuantumOps.Proofs.Channel.Power

/-! Noise as a physical channel. Its probability grows from zero with the gate time and never
exceeds one, and the channel in closed form is what happens to the qubit with that probability. So
every channel keeps the trace and is completely positive. -/
namespace QuantumOps
open Scalar (number)
open scoped Kronecker Matrix ComplexOrder

/-- The probability that something has happened, over the time that has passed. -/
structure IsProbabilityLaw (p : ℝ → ℝ) : Prop where
  zero : p 0 = 0
  monotone : MonotoneOn p (Set.Ici 0)
  mem_unit : ∀ t ∈ Set.Ici 0, p t ∈ Set.Icc 0 1

namespace IsProbabilityLaw

variable {p q : ℝ → ℝ}

theorem of_le_one (zero : p 0 = 0) (monotone : MonotoneOn p (Set.Ici 0))
    (le_one : ∀ t, p t ≤ 1) : IsProbabilityLaw p where
  zero := zero
  monotone := monotone
  mem_unit t ht := ⟨zero ▸ monotone Set.self_mem_Ici ht ht, le_one t⟩

theorem decay {r : ℝ} (hr : 0 ≤ r) : IsProbabilityLaw fun t => 1 - Real.exp (-(t * r)) := by
  refine of_le_one (by simp) (fun s _ t _ hst => ?_) fun t => ?_
  · have hle : s * r ≤ t * r := mul_le_mul_of_nonneg_right hst hr
    gcongr
  · exact sub_le_self 1 (Real.exp_pos _).le

theorem const_mul (hp : IsProbabilityLaw p) {c : ℝ} (hc : c ∈ Set.Icc 0 1) :
    IsProbabilityLaw fun t => c * p t where
  zero := by rw [hp.zero, mul_zero]
  monotone s hs t ht hst := mul_le_mul_of_nonneg_left (hp.monotone hs ht hst) hc.1
  mem_unit t ht := ⟨mul_nonneg hc.1 (hp.mem_unit t ht).1,
    mul_le_one₀ hc.2 (hp.mem_unit t ht).1 (hp.mem_unit t ht).2⟩

/-- One of two independent events has happened. -/
theorem either (hp : IsProbabilityLaw p) (hq : IsProbabilityLaw q) :
    IsProbabilityLaw fun t => Noise.either (p t) (q t) := by
  have hnot (t : ℝ) : Noise.either (p t) (q t) = 1 - (1 - p t) * (1 - q t) := by
    simp [Noise.either]
  simp only [hnot]
  refine ⟨?_, fun s hs t ht hst => ?_, fun t ht => ?_⟩
  · rw [hp.zero, hq.zero, sub_zero, one_mul, sub_self]
  · have hp1 : 0 ≤ 1 - p s := sub_nonneg.mpr (hp.mem_unit s hs).2
    have hq1 : 0 ≤ 1 - q t := sub_nonneg.mpr (hq.mem_unit t ht).2
    have hmul : (1 - p t) * (1 - q t) ≤ (1 - p s) * (1 - q s) :=
      mul_le_mul (sub_le_sub_left (hp.monotone hs ht hst) 1)
        (sub_le_sub_left (hq.monotone hs ht hst) 1) hq1 hp1
    exact sub_le_sub_left hmul 1
  · obtain ⟨hp0, hp1⟩ := hp.mem_unit t ht
    obtain ⟨hq0, hq1⟩ := hq.mem_unit t ht
    have hnonneg : 0 ≤ (1 - p t) * (1 - q t) :=
      mul_nonneg (sub_nonneg.mpr hp1) (sub_nonneg.mpr hq1)
    have hle : (1 - p t) * (1 - q t) ≤ 1 :=
      mul_le_one₀ (sub_le_self 1 hp0) (sub_nonneg.mpr hq1) (sub_le_self 1 hq0)
    exact ⟨sub_nonneg.mpr hle, sub_le_self 1 hnonneg⟩

end IsProbabilityLaw

namespace Noise

theorem isProbabilityLaw_damping {r : ℝ} (hr : 0 ≤ r) :
    IsProbabilityLaw fun t => dampingProbability t r := by
  simpa [dampingProbability] using IsProbabilityLaw.decay hr

theorem isProbabilityLaw_depolarising {r : ℝ} (hr : 0 ≤ r) :
    IsProbabilityLaw fun t => depolarisingProbability t r := by
  have hc : (3 / 4 : ℝ) ∈ Set.Icc 0 1 := by norm_num
  simpa [depolarisingProbability] using (IsProbabilityLaw.decay hr).const_mul hc

theorem isProbabilityLaw_dephasing {r : ℝ} (hr : 0 ≤ r) :
    IsProbabilityLaw fun t => dephasingProbability t r := by
  have hc : (1 / 2 : ℝ) ∈ Set.Icc 0 1 := by norm_num
  have htwice (t : ℝ) : 2 * t * r = t * (2 * r) := by ring
  have h2r : 0 ≤ 2 * r := mul_nonneg zero_le_two hr
  simpa [dephasingProbability, htwice] using (IsProbabilityLaw.decay h2r).const_mul hc

/-- The probability of noise with rates that are not negative. -/
theorem exists_isProbabilityLaw {kind : Noise ℝ} (hp : kind.hasProbability)
    (hr : kind.RatesIn (Set.Ici 0)) :
    ∃ p, (∀ t, kind.probability (number t) = .ok (some (p t))) ∧ IsProbabilityLaw p := by
  obtain ⟨r, hr0, rfl⟩ | ⟨r, hr0, rfl⟩ | ⟨r, hr0, rfl⟩ | ⟨r, hr0, s, hs0, rfl⟩ := hr.cases hp
  · exact ⟨_, fun _ => rfl, isProbabilityLaw_damping hr0⟩
  · exact ⟨_, fun _ => rfl, isProbabilityLaw_depolarising hr0⟩
  · exact ⟨_, fun _ => rfl, isProbabilityLaw_dephasing hr0⟩
  · exact ⟨_, fun _ => rfl,
      (isProbabilityLaw_depolarising hr0).either (isProbabilityLaw_dephasing hs0)⟩

end Noise

/-- Matrices of a qubit, the density matrices among them. -/
abbrev Density := Matrix (Fin 2) (Fin 2) ℂ

/-- A map of density matrices, done to a qubit beside another system. -/
def blockwise {ι : Type} (Φ : Density → Density) (ρ : Matrix (ι × Fin 2) (ι × Fin 2) ℂ) :
    Matrix (ι × Fin 2) (ι × Fin 2) ℂ :=
  Matrix.of fun i j => Φ (Matrix.of fun a b => ρ (i.1, a) (j.1, b)) i.2 j.2

/-- A map of density matrices that preserves the trace and is completely positive. -/
structure IsPhysical (Φ : Density → Density) : Prop where
  trace_eq : ∀ ρ, (Φ ρ).trace = ρ.trace
  posSemidef : ∀ (n : ℕ) (ρ : Matrix (Fin n × Fin 2) (Fin n × Fin 2) ℂ),
    ρ.PosSemidef → (blockwise Φ ρ).PosSemidef

section
variable {κ : Type} [Fintype κ]

theorem blockwise_kraus {ι : Type} [Fintype ι] [DecidableEq ι] (K : κ → Density)
    (ρ : Matrix (ι × Fin 2) (ι × Fin 2) ℂ) : blockwise (fun ρ => ∑ k, K k * ρ * (K k)ᴴ) ρ =
      ∑ k, ((1 : Matrix ι ι ℂ) ⊗ₖ K k) * ρ * (1 ⊗ₖ K k)ᴴ := by
  ext ⟨i, a⟩ ⟨j, b⟩
  simp [blockwise, Matrix.sum_apply, Matrix.mul_apply, Fintype.sum_prod_type, Matrix.one_apply,
    apply_ite (starRingEnd ℂ), Finset.sum_add_distrib]

theorem IsPhysical.of_kraus {K : κ → Density} (hK : ∑ k, (K k)ᴴ * K k = 1) :
    IsPhysical fun ρ => ∑ k, K k * ρ * (K k)ᴴ where
  trace_eq ρ := by
    have hcycle (k : κ) : (K k * ρ * (K k)ᴴ).trace = ((K k)ᴴ * K k * ρ).trace :=
      Matrix.trace_mul_cycle _ _ _
    simp only [Matrix.trace_sum, hcycle]
    rw [← Matrix.trace_sum, ← Finset.sum_mul, hK, one_mul]
  posSemidef n ρ hρ := by
    rw [blockwise_kraus]
    exact Matrix.posSemidef_sum _ fun k _ => hρ.mul_mul_conjTranspose_same _

/-- A mixture of unitary operations. -/
theorem IsPhysical.of_mixture {w : κ → ℝ} (hw : ∀ k, 0 ≤ w k) (hsum : ∑ k, w k = 1)
    {U : κ → Density} (hU : ∀ k, (U k)ᴴ * U k = 1) :
    IsPhysical fun ρ => ∑ k, w k • (U k * ρ * (U k)ᴴ) := by
  have hstar (k : κ) : (√(w k) • U k)ᴴ = √(w k) • (U k)ᴴ := by
    rw [Matrix.conjTranspose_smul, star_trivial]
  have hkraus : IsPhysical fun ρ => ∑ k, √(w k) • U k * ρ * (√(w k) • U k)ᴴ := by
    refine .of_kraus ?_
    simp only [hstar, smul_mul_smul_comm, Real.mul_self_sqrt (hw _), hU]
    rw [← Finset.sum_smul, hsum, one_smul]
  simpa only [hstar, smul_mul_assoc, mul_smul_comm, smul_smul, Real.mul_self_sqrt (hw _)] using
    hkraus

end

/-- What a channel makes of a density matrix. -/
noncomputable def Quad.act (C : Matrix4 ℝ) : Density →ₗ[ℂ] Density :=
  rows.symm.toLinearMap ∘ₗ C.toChannel.mulVecLin ∘ₗ rows.toLinearMap

theorem Quad.act_eq_iff {C : Matrix4 ℝ} {ρ σ : Density} :
    C.act ρ = σ ↔ C.toChannel *ᵥ rows ρ = rows σ :=
  rows.symm_apply_eq

theorem rows_smul (c : ℝ) (ρ : Density) : rows (c • ρ) = c • rows ρ := rfl

theorem ofReal_sqrt_mul_self {x : ℝ} (h : 0 ≤ x) : (√x : ℂ) * √x = x := by
  rw [← Complex.ofReal_mul, Real.mul_self_sqrt h]

/-- The Kraus operators of a decay with probability `p`: without it, and with it. -/
noncomputable def decayOperators (p : ℝ) : Fin 2 → Density :=
  ![!![1, 0; 0, √(1 - p)], !![0, √p; 0, 0]]

theorem decayOperators_complete {p : ℝ} (hp : p ∈ Set.Icc 0 1) :
    ∑ k, (decayOperators p k)ᴴ * decayOperators p k = 1 := by
  have hkeep : (√(1 - p) : ℂ) * √(1 - p) = 1 - p := by
    exact_mod_cast ofReal_sqrt_mul_self (sub_nonneg.mpr hp.2)
  ext i j
  fin_cases i <;> fin_cases j <;>
    simp [decayOperators, Fin.sum_univ_two, Matrix.mul_apply, hkeep, ofReal_sqrt_mul_self hp.1]

namespace Noise

theorem dephasingChannel_eq (p : ℝ) : (dephasingChannel p).toChannel =
    (1 - p) • (1 ⊗ₖ 1) + p • (Pauli.z ⊗ₖ Pauli.zᵀ) := by
  ext ⟨i, j⟩ ⟨k, l⟩
  fin_cases i <;> fin_cases j <;> fin_cases k <;> fin_cases l <;>
    simp [dephasingChannel, Quad.toChannel, Quad.get, Pauli.z] <;> ring

theorem depolarisingChannel_eq (t r : ℝ) : (depolarisingChannel t r).toChannel =
    (1 - depolarisingProbability t r) • (1 ⊗ₖ 1) + (depolarisingProbability t r / 3) •
      (Pauli.x ⊗ₖ Pauli.xᵀ + Pauli.y ⊗ₖ Pauli.yᵀ + Pauli.z ⊗ₖ Pauli.zᵀ) := by
  ext ⟨i, j⟩ ⟨k, l⟩
  fin_cases i <;> fin_cases j <;> fin_cases k <;> fin_cases l <;>
    simp [depolarisingChannel, depolarisingProbability, Quad.toChannel, Quad.get, Pauli.x, Pauli.y,
      Pauli.z] <;> ring

theorem dampingChannel_eq {t r : ℝ} (hp : 0 ≤ dampingProbability t r) :
    (dampingChannel t r).toChannel = ∑ k, decayOperators (dampingProbability t r) k ⊗ₖ
      (decayOperators (dampingProbability t r) k)ᴴᵀ := by
  have hkeep : √(1 - dampingProbability t r) = Real.exp (-(t * r) / 2) := by
    rw [Real.exp_half]
    simp [dampingProbability]
  have hfull : (Real.exp (-(t * r) / 2) : ℂ) * Real.exp (-(t * r) / 2) = Real.exp (-(t * r)) := by
    rw [← Complex.ofReal_mul, ← Real.exp_add, add_halves]
  have hdecay : (√(dampingProbability t r) : ℂ) * √(dampingProbability t r) =
      1 - Real.exp (-(t * r)) := by
    rw [ofReal_sqrt_mul_self hp]
    simp [dampingProbability]
  ext ⟨i, j⟩ ⟨k, l⟩
  fin_cases i <;> fin_cases j <;> fin_cases k <;> fin_cases l <;>
    simp [decayOperators, hkeep, hfull, hdecay, dampingChannel, Quad.toChannel, Quad.get,
      -Complex.ofReal_exp]

/-- Over a gate time the noise has a probability, and with that probability its channel makes the
given matrix of every density matrix. -/
def Acts (kind : Noise ℝ) (t : ℝ) (Φ : ℝ → Density → Density) : Prop :=
  ∃ p C, kind.probability (number t) = .ok (some p) ∧
    kind.superoperator (number t) = .ok (.closed C) ∧ ∀ ρ, C.act ρ = Φ p ρ

theorem acts_dephasing (t r : ℝ) : (dephasing (number r)).Acts t fun p ρ =>
    (1 - p) • ρ + p • (Pauli.z * ρ * Pauli.z) := by
  refine ⟨_, _, rfl, rfl, fun ρ => Quad.act_eq_iff.mpr ?_⟩
  simp only [dephasingChannel_eq, Matrix.add_mulVec, Matrix.smul_mulVec, Matrix.one_kronecker_one,
    Matrix.one_mulVec, kronecker_mulVec_rows, Matrix.transpose_transpose, map_add, rows_smul]

theorem acts_depolarising (t r : ℝ) : (depolarising (number r)).Acts t fun p ρ =>
    (1 - p) • ρ + (p / 3) •
      (Pauli.x * ρ * Pauli.x + Pauli.y * ρ * Pauli.y + Pauli.z * ρ * Pauli.z) := by
  refine ⟨_, _, rfl, rfl, fun ρ => Quad.act_eq_iff.mpr ?_⟩
  simp only [depolarisingChannel_eq, Matrix.add_mulVec, Matrix.smul_mulVec,
    Matrix.one_kronecker_one, Matrix.one_mulVec, kronecker_mulVec_rows, Matrix.transpose_transpose,
    map_add, rows_smul]

theorem acts_damping {t r : ℝ} (ht : 0 ≤ t) (hr : 0 ≤ r) : (damping (number r)).Acts t fun p ρ =>
    ∑ k, decayOperators p k * ρ * (decayOperators p k)ᴴ := by
  refine ⟨_, _, rfl, rfl, fun ρ => Quad.act_eq_iff.mpr ?_⟩
  have hp : 0 ≤ dampingProbability t r := ((isProbabilityLaw_damping hr).mem_unit t ht).1
  simp only [dampingChannel_eq hp, Matrix.sum_mulVec, kronecker_mulVec_rows,
    Matrix.transpose_transpose, map_sum]

end Noise

section
variable {p : ℝ} (hp : p ∈ Set.Icc 0 1)
include hp

theorem isPhysical_decay :
    IsPhysical fun ρ => ∑ k, decayOperators p k * ρ * (decayOperators p k)ᴴ :=
  .of_kraus (decayOperators_complete hp)

theorem isPhysical_phaseFlip : IsPhysical fun ρ => (1 - p) • ρ + p • (Pauli.z * ρ * Pauli.z) := by
  have hw : ∀ k : Fin 2, 0 ≤ ![1 - p, p] k := by
    simpa [Fin.forall_fin_two] using hp.symm
  have hsum : ∑ k : Fin 2, ![1 - p, p] k = 1 := by simp
  have hU : ∀ k : Fin 2, (![1, Pauli.z] k)ᴴ * ![1, Pauli.z] k = 1 := by
    simp [Fin.forall_fin_two, ← Matrix.star_eq_conjTranspose, Pauli.z_conj, Pauli.z_mul_z]
  simpa [← Matrix.star_eq_conjTranspose, Pauli.z_conj] using IsPhysical.of_mixture hw hsum hU

theorem isPhysical_anyFlip : IsPhysical fun ρ => (1 - p) • ρ + (p / 3) •
    (Pauli.x * ρ * Pauli.x + Pauli.y * ρ * Pauli.y + Pauli.z * ρ * Pauli.z) := by
  have hw : ∀ k : Fin 4, 0 ≤ ![1 - p, p / 3, p / 3, p / 3] k := by
    have h3 : 0 ≤ p / 3 := div_nonneg hp.1 zero_le_three
    simp [Fin.forall_fin_succ, hp.2, h3]
  have hsum : ∑ k : Fin 4, ![1 - p, p / 3, p / 3, p / 3] k = 1 := by
    simp [Fin.sum_univ_four]
    ring
  have hU : ∀ k : Fin 4, (![1, Pauli.x, Pauli.y, Pauli.z] k)ᴴ *
      ![1, Pauli.x, Pauli.y, Pauli.z] k = 1 := by
    simp [Fin.forall_fin_succ, ← Matrix.star_eq_conjTranspose, Pauli.x_conj, Pauli.y_conj,
      Pauli.z_conj, Pauli.x_mul_x, Pauli.y_mul_y, Pauli.z_mul_z]
  simpa [Fin.sum_univ_four, ← Matrix.star_eq_conjTranspose, Pauli.x_conj, Pauli.y_conj,
    Pauli.z_conj, smul_add, add_assoc] using IsPhysical.of_mixture hw hsum hU

end

namespace Noise

theorem Acts.exists_isPhysical {kind : Noise ℝ} {t p : ℝ} {Φ : ℝ → Density → Density}
    (h : kind.Acts t Φ) (hprob : kind.probability (number t) = .ok (some p))
    (hΦ : IsPhysical (Φ p)) :
    ∃ C, kind.superoperator (number t) = .ok (.closed C) ∧ IsPhysical C.act := by
  obtain ⟨p', C, hprob', hC, hact⟩ := h
  obtain rfl : p = p' := by simpa [hprob] using hprob'
  have hΦC : C.act = Φ p := funext hact
  exact ⟨C, hC, hΦC ▸ hΦ⟩

/-- The channel of noise over a time that is not negative, with rates that are not. -/
theorem exists_isPhysical {kind : Noise ℝ} (hp : kind.hasProbability)
    (hr : kind.RatesIn (Set.Ici 0)) {t : ℝ} (ht : 0 ≤ t) :
    ∃ C, kind.superoperator (number t) = .ok (.closed C) ∧ IsPhysical C.act := by
  have hdephasing {r : ℝ} (hr0 : 0 ≤ r) :
      ∃ C, (dephasing (number r)).superoperator (number t) = .ok (.closed C) ∧
        IsPhysical C.act :=
    (acts_dephasing t r).exists_isPhysical rfl
      (isPhysical_phaseFlip ((isProbabilityLaw_dephasing hr0).mem_unit t ht))
  obtain ⟨r, hr0, rfl⟩ | ⟨r, hr0, rfl⟩ | ⟨r, hr0, rfl⟩ | ⟨-, -, s, hs0, rfl⟩ := hr.cases hp
  · exact (acts_damping ht hr0).exists_isPhysical rfl
      (isPhysical_decay ((isProbabilityLaw_damping hr0).mem_unit t ht))
  · exact (acts_depolarising t r).exists_isPhysical rfl
      (isPhysical_anyFlip ((isProbabilityLaw_depolarising hr0).mem_unit t ht))
  · exact hdephasing hr0
  · exact hdephasing hs0

/-- Noise with rates that are not negative has a probability between zero and one, which is zero at
the start and never falls, and its channel preserves the trace and is completely positive. Dephasing
flips the phase with that probability, depolarising does each of the three flips with a third of it,
and damping lowers the qubit with it. Random noise does what its dephasing does. -/
theorem channel_physical :
    (∀ kind : Noise ℝ, kind.hasProbability → kind.RatesIn (Set.Ici 0) →
      (∃ p : ℝ → ℝ, (∀ t, kind.probability (number t) = .ok (some (p t))) ∧
        p 0 = 0 ∧ MonotoneOn p (Set.Ici 0) ∧ ∀ t ∈ Set.Ici 0, p t ∈ Set.Icc 0 1) ∧
      ∀ t ∈ Set.Ici (0 : ℝ), ∃ C, kind.superoperator (number t) = .ok (.closed C) ∧
        IsPhysical C.act) ∧
    (∀ t ∈ Set.Ici (0 : ℝ), ∀ r ∈ Set.Ici (0 : ℝ),
      ((dephasing (number r)).Acts t fun p ρ => (1 - p) • ρ + p • (Pauli.z * ρ * Pauli.z)) ∧
      ((depolarising (number r)).Acts t fun p ρ => (1 - p) • ρ + (p / 3) •
        (Pauli.x * ρ * Pauli.x + Pauli.y * ρ * Pauli.y + Pauli.z * ρ * Pauli.z)) ∧
      (damping (number r)).Acts t fun p ρ =>
        ∑ k, decayOperators p k * ρ * (decayOperators p k)ᴴ) ∧
    ∀ t r s : Scalar ℝ, (random r s).superoperator t = (dephasing s).superoperator t := by
  refine ⟨fun kind hp hr => ⟨?_, fun t ht => exists_isPhysical hp hr ht⟩, fun t ht r hr =>
    ⟨acts_dephasing t r, acts_depolarising t r, acts_damping ht hr⟩, fun _ _ _ => rfl⟩
  obtain ⟨p, hprob, hlaw⟩ := exists_isProbabilityLaw hp hr
  exact ⟨p, hprob, hlaw.zero, hlaw.monotone, hlaw.mem_unit⟩

/-- Random noise with two rates, and damping with a rate over a time. -/
theorem channel_physical_random :
    let kind : Noise ℝ := .random (number 1) (number 2)
    kind.hasProbability ∧ kind.RatesIn (Set.Ici 0) ∧ (3 : ℝ) ∈ Set.Ici (0 : ℝ) ∧
    (∃ p, kind.probability (number 0) = .ok (some p) ∧ p = 0) ∧
    (∃ C, kind.superoperator (number 3) = .ok (.closed C) ∧ IsPhysical C.act) ∧
    (damping (number 2)).Acts 3 fun p ρ =>
      ∑ k, decayOperators p k * ρ * (decayOperators p k)ᴴ := by
  intro kind
  have hr : kind.RatesIn (Set.Ici 0) := by simp [kind, RatesIn, rates]
  have h3 : (3 : ℝ) ∈ Set.Ici (0 : ℝ) := by simp
  obtain ⟨hall, hacts, -⟩ := channel_physical
  obtain ⟨⟨p, hprob, hzero, -⟩, hphysical⟩ := hall kind rfl hr
  exact ⟨rfl, hr, h3, ⟨p 0, hprob 0, hzero⟩, hphysical 3 h3, (hacts 3 h3 2 (by simp)).2.2⟩

end Noise
end QuantumOps
