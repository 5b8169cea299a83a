import QuantumOps.Proofs.Channel.Relaxation
import QuantumOps.Proofs.Exact.OneParameter
import QuantumOps.Operation.View

/-! Powers of noise. A power multiplies the gate time, and channels in closed form over times that
add up are multiplied: the populations relax and the coherences decay by exponentials of the time.
Of general noise the generators are added up. -/
namespace QuantumOps
open Scalar (number)

section
variable {p q : ℝ}

theorem relaxation_one (h : p + q = 1) : relaxation p q 1 1 1 = 1 := by
  obtain rfl : q = 1 - p := eq_sub_of_add_eq' h
  rw [relaxation, ← parityBlocks_one, one_smul]
  congr 1
  ext i j
  fin_cases i <;> fin_cases j <;> simp

theorem relaxation_mul_relaxation (h : p + q = 1) (u x y u' x' y' : ℂ) :
    relaxation p q u x y * relaxation p q u' x' y' = relaxation p q (u * u') (x * x') (y * y') := by
  obtain rfl : q = 1 - p := eq_sub_of_add_eq' h
  rw [relaxation, relaxation, relaxation, parityBlocks_mul, smul_mul_smul_comm, one_mul]
  congr 1
  ext i j
  fin_cases i <;> fin_cases j <;> simp <;> ring

theorem isOneParameter_relaxation (h : p + q = 1) (x y : ℂ) :
    IsOneParameter fun t => relaxation p q 1 (Complex.exp (t * x)) (Complex.exp (t * y)) where
  map_zero := by
    rw [Complex.ofReal_zero, zero_mul, zero_mul, Complex.exp_zero, relaxation_one h]
  map_add s t := by
    rw [relaxation_mul_relaxation h, Complex.ofReal_add, add_mul, add_mul, Complex.exp_add,
      Complex.exp_add, one_mul]

end

namespace Noise

/-- The symbolic rates are numbers from a set. -/
def RatesIn (s : Set ℝ) (kind : Noise ℝ) : Prop := ∀ r ∈ kind.rates, ∃ x ∈ s, r.2 = number x

/-- The kinds of noise that have a probability, with their rates as numbers. -/
theorem RatesIn.cases {s : Set ℝ} {kind : Noise ℝ} (hr : kind.RatesIn s)
    (hp : kind.hasProbability) :
    (∃ r ∈ s, kind = damping (number r)) ∨ (∃ r ∈ s, kind = depolarising (number r)) ∨
      (∃ r ∈ s, kind = dephasing (number r)) ∨
      ∃ r' ∈ s, ∃ r ∈ s, kind = random (number r') (number r) := by
  cases kind with
  | random r' r =>
    obtain ⟨⟨x', hx', rfl⟩, x, hx, rfl⟩ : (∃ x ∈ s, r' = number x) ∧ ∃ x ∈ s, r = number x := by
      simpa [RatesIn, rates] using hr
    exact .inr (.inr (.inr ⟨x', hx', x, hx, rfl⟩))
  | general rates => cases hp
  | _ => simpa [RatesIn, rates] using hr

/-- A channel in closed form is a relaxation that goes on in time. -/
theorem exists_relaxation {kind : Noise ℝ} (hp : kind.hasProbability)
    (hr : kind.RatesIn Set.univ) :
    ∃ (p q : ℝ) (x y : ℂ), p + q = 1 ∧ ∀ t, ∃ C, kind.superoperator (number t) = .ok (.closed C) ∧
      C.toChannel = relaxation p q 1 (Complex.exp (t * x)) (Complex.exp (t * y)) := by
  have hdephasing (t r : ℝ) : (dephasingChannel (dephasingProbability t r)).toChannel =
      relaxation 1 0 1 (Complex.exp (t * 0)) (Complex.exp (t * -(2 * r))) := by
    rw [dephasingChannel_toChannel]
    congr 2 <;> ring
  obtain ⟨r, -, rfl⟩ | ⟨r, -, rfl⟩ | ⟨r, -, rfl⟩ | ⟨-, -, r, -, rfl⟩ := hr.cases hp
  · refine ⟨1, 0, -r, -r / 2, add_zero 1, fun t => ⟨_, rfl, ?_⟩⟩
    rw [dampingChannel_toChannel]
    congr 2 <;> ring
  · refine ⟨2⁻¹, 2⁻¹, -r, -r, by norm_num, fun t => ⟨_, rfl, ?_⟩⟩
    rw [depolarisingChannel_toChannel]
    congr 2 <;> ring
  · exact ⟨1, 0, 0, -(2 * r), add_zero 1, fun t => ⟨_, rfl, hdephasing t r⟩⟩
  · exact ⟨1, 0, 0, -(2 * r), add_zero 1, fun t => ⟨_, rfl, hdephasing t r⟩⟩

theorem generator_add (s t : ℝ) (rates : Triple (Triple ℝ)) : (generator (s + t) rates).toChannel =
    (generator s rates).toChannel + (generator t rates).toChannel := by
  simp only [generator_toChannel, ← Finset.sum_add_distrib, ← add_smul, add_mul, Complex.ofReal_add]

end Noise

namespace Operation

/-- Noise over a gate time. -/
def timedNoise (kind : Noise ℝ) (q : ℕ) (t : ℝ) : Operation ℝ := record (.noise kind q (number t))

/-- Raising noise with numbers for rates to powers gives channels that are multiplied as the powers
are added, in either order, with the identity for zero; natural powers are therefore powers of the
channel. Of general noise the generators are added. -/
theorem noisePower_exact (q : ℕ) (t : ℝ) :
    (∀ kind : Noise ℝ, kind.hasProbability → kind.RatesIn Set.univ →
      ∃ (time : ℝ → ℝ) (C : ℝ → Matrix4 ℝ),
        (∀ a, (timedNoise kind q t).noisePower (number a) = .ok (timedNoise kind q (time a)) ∧
          kind.superoperator (number (time a)) = .ok (.closed (C a))) ∧
        kind.superoperator (number t) = .ok (.closed (C 1)) ∧
        (∀ a b, (C (a + b)).toChannel = (C a).toChannel * (C b).toChannel ∧
          (C (a + b)).toChannel = (C b).toChannel * (C a).toChannel) ∧
        (C 0).toChannel = 1 ∧ ∀ n : ℕ, (C n).toChannel = (C 1).toChannel ^ n) ∧
    ∀ rates : Triple (Triple ℝ), ∃ (time : ℝ → ℝ) (G : ℝ → Matrix4 ℝ),
      (∀ a, (timedNoise (.general rates) q t).noisePower (number a) =
          .ok (timedNoise (.general rates) q (time a)) ∧
        (Noise.general rates).superoperator (number (time a)) = .ok (.exponential (G a))) ∧
      ∀ a b, (G (a + b)).toChannel = (G a).toChannel + (G b).toChannel := by
  constructor
  · intro kind hp hr
    obtain ⟨p, p', x, y, hsum, hC⟩ := Noise.exists_relaxation hp hr
    choose C hclosed hrelax using hC
    have hone : IsOneParameter fun a => (C (t * a)).toChannel := by
      have hexp (a : ℝ) (z : ℂ) : ((t * a : ℝ) : ℂ) * z = a * (t * z) := by
        push_cast
        ring
      simpa only [hrelax, hexp] using isOneParameter_relaxation hsum (t * x) (t * y)
    have hsame : kind.superoperator (number t) = .ok (.closed (C (t * 1))) := by
      rw [mul_one]
      exact hclosed t
    refine ⟨(t * ·), fun a => C (t * a), fun a => ⟨rfl, hclosed _⟩, hsame, fun a b => ⟨?_, ?_⟩,
      hone.map_zero, fun n => ?_⟩
    · exact hone.map_add a b
    · rw [add_comm a b]
      exact hone.map_add b a
    · have hpow := hone.pow 1 n
      rwa [one_mul] at hpow
  · intro rates
    have hadd (a b : ℝ) : (Noise.generator (t * (a + b)) rates).toChannel =
        (Noise.generator (t * a) rates).toChannel + (Noise.generator (t * b) rates).toChannel := by
      rw [mul_add, Noise.generator_add]
    exact ⟨(t * ·), fun a => Noise.generator (t * a) rates, fun a => ⟨rfl, rfl⟩, hadd⟩

/-- Random noise done twice and reversed. -/
theorem noisePower_exact_random :
    let kind : Noise ℝ := .random (number 3) (number 2)
    kind.hasProbability ∧ kind.RatesIn Set.univ ∧
    ∃ C D : Matrix4 ℝ, kind.superoperator (number 5) = .ok (.closed C) ∧
      (∃ t, (timedNoise kind 1 5).noisePower (number 2) = .ok (timedNoise kind 1 t) ∧
        kind.superoperator (number t) = .ok (.closed D)) ∧ D.toChannel = C.toChannel ^ 2 := by
  intro kind
  have hr : kind.RatesIn Set.univ := by simp [kind, Noise.RatesIn, Noise.rates]
  obtain ⟨time, C, hpower, hC, -, -, hpow⟩ := (noisePower_exact 1 5).1 kind rfl hr
  exact ⟨rfl, hr, C 1, C 2, hC, ⟨time 2, hpower 2⟩, by exact_mod_cast hpow 2⟩

end Operation
end QuantumOps
