import QuantumOps.Proofs.Kak.Reconstruction
import QuantumOps.Proofs.Gate.Power

/-! Gates as exponentials of products of Pauli matrices. A gate whose decomposition has nothing
around the interaction is that interaction, and so is the exponential of the sum that the strengths
of the interaction stand for. -/
namespace QuantumOps
open Complex (I)
open Scalar (number)
open scoped Kronecker Real

namespace Pauli

/-- The operator that raises the state one to the state zero. -/
def plus : Matrix (Fin 2) (Fin 2) ℂ := !![0, 1; 0, 0]

/-- The operator that lowers the state zero to the state one. -/
def minus : Matrix (Fin 2) (Fin 2) ℂ := !![0, 0; 1, 0]

/-- An excitation is exchanged between the qubits. -/
theorem plus_minus_add_minus_plus :
    plus ⊗ₖ minus + minus ⊗ₖ plus = (1 / 2 : ℂ) • (both x + both y) := by
  ext ⟨i, j⟩ ⟨k, l⟩
  fin_cases i <;> fin_cases j <;> fin_cases k <;> fin_cases l <;>
    simp [plus, minus, both, x, y] <;> norm_num

end Pauli

/-- The interaction of the opposite strengths as the product of the exponentials of its summands. -/
theorem exp_neg_interaction (x y z : ℝ) :
    NormedSpace.exp (-I • ((x : ℂ) • Pauli.both Pauli.x + (y : ℂ) • Pauli.both Pauli.y +
      (z : ℂ) • Pauli.both Pauli.z)) = interaction ⟨-x, -y, -z⟩ := by
  rw [interaction_eq_exp]
  congr 1
  push_cast
  module

theorem interaction_neg_eq_mul (x y z : ℝ) : interaction ⟨-x, -y, -z⟩ =
    ((Real.cos x : ℂ) • 1 - (I * Real.sin x) • Pauli.both Pauli.x) *
      ((Real.cos y : ℂ) • 1 - (I * Real.sin y) • Pauli.both Pauli.y) *
      ((Real.cos z : ℂ) • 1 - (I * Real.sin z) • Pauli.both Pauli.z) := by
  have hfactor (a : ℝ) (P : Matrix Both Both ℂ) :
      rotation (-a) P = (Real.cos a : ℂ) • 1 - (I * Real.sin a) • P := by
    rw [rotation, Real.cos_neg, Real.sin_neg]
    push_cast
    module
  simp only [interaction, hfactor]

namespace SingleGate

/-- With numbers for parameters the gate has the unitary matrix. -/
def HasUnitary (g : SingleGate ℝ) (A : Matrix (Fin 2) (Fin 2) ℂ) : Prop :=
  ∃ U, (g.map number).evaluate = .ok U ∧ U.toMatrix = A

theorem HasUnitary.of_rotation {g : SingleGate ℝ} {P : Matrix (Fin 2) (Fin 2) ℂ} {t : ℝ}
    (hg : g.angle?.isSome) (hP : P * P = 1) (hm : g.matrix.toMatrix = rotation (-(t / 2)) P) :
    g.HasUnitary (NormedSpace.exp (-(I * (t / 2)) • P)) := by
  refine ⟨_, evaluate_of_angle? hg, ?_⟩
  have hangle : -(I * ((t : ℂ) / 2)) = ((-(t / 2) : ℝ) : ℂ) * I := by
    push_cast
    ring
  rw [hm, rotation_eq_exp hP, hangle]

end SingleGate

namespace TwoGate

/-- With numbers for parameters the gate has the unitary matrix. -/
def HasUnitary (g : TwoGate ℝ) (A : Matrix Both Both ℂ) : Prop :=
  ∃ U, (g.map number).evaluate = .ok U ∧ U.toMatrix = A

theorem hasUnitary_iff {g : TwoGate ℝ} {A : Matrix Both Both ℂ} :
    g.HasUnitary A ↔ g.matrix.toMatrix = A := by
  rw [HasUnitary, evaluate_map_number]
  constructor
  · rintro ⟨U, hU, hA⟩
    cases hU
    exact hA
  · exact fun hA => ⟨_, rfl, hA⟩

/-- A gate is what its decomposition says once the matrices around the interaction are known. -/
theorem Rebuilt.eq_turned {control target : ℕ} {g : TwoGate ℝ} (h : g.Rebuilt control target)
    {w x y z : ℝ} {c d : Option (Circuit ℝ)} {A B : Matrix Both Both ℂ}
    (hk : (g.map number).kak control target = ⟨number w, ⟨number x, number y, number z⟩, c, d⟩)
    (hc : Circuit.optionalMatrix? control target c = some B)
    (hd : Circuit.optionalMatrix? control target d = some A) :
    g.matrix.toMatrix = turn w • (A * interaction ⟨x, y, z⟩ * B) := by
  obtain ⟨w', ⟨x', y', z'⟩, before, after, hw, hs, hb, ha, -, -, hU⟩ := h
  rw [hk] at hw hs hb ha
  cases hw
  cases hs
  obtain rfl : B = before := Option.some.inj (hc.symm.trans hb)
  obtain rfl : A = after := Option.some.inj (hd.symm.trans ha)
  exact hU

/-- Where the decomposition is up to a phase nothing but the interaction, the gate is. -/
theorem Rebuilt.eq_interaction {control target : ℕ} {g : TwoGate ℝ}
    (h : g.Rebuilt control target) {w x y z : ℝ}
    (hk : (g.map number).kak control target =
      ⟨number w, ⟨number x, number y, number z⟩, none, none⟩) :
    g.matrix.toMatrix = turn w • interaction ⟨x, y, z⟩ := by
  rw [h.eq_turned hk rfl rfl, one_mul, mul_one]

theorem swap_eq_interaction :
    swap.matrix.toMatrix = turn (-(π / 4)) • interaction ⟨π / 4, π / 4, π / 4⟩ :=
  (@rebuilt_swap 0 1).eq_interaction (by simp [map, kak])

theorem xy_eq_interaction (t : ℝ) :
    (xy t).matrix.toMatrix = turn 0 • interaction ⟨t / 4, t / 4, 0⟩ :=
  (@rebuilt_xy 0 1 t).eq_interaction (by simp [map, kak])

theorem molmerSorensenXX_eq_interaction :
    molmerSorensenXX.matrix.toMatrix = turn 0 • interaction ⟨-(π / 4), 0, 0⟩ :=
  (@rebuilt_molmerSorensenXX 0 1).eq_interaction (by simp [map, kak])

theorem variableMSXX_eq_interaction (t : ℝ) :
    (variableMSXX t).matrix.toMatrix = turn 0 • interaction ⟨t * -(1 / 2), 0, 0⟩ :=
  (@rebuilt_variableMSXX 0 1 t).eq_interaction (by simp [map, kak])

theorem qsim_eq_interaction (x y z : ℝ) : (qsim x y z).matrix.toMatrix =
    turn (-(π / 4)) • interaction ⟨-x + π / 4, -y + π / 4, -z + π / 4⟩ :=
  (@rebuilt_qsim 0 1 x y z).eq_interaction (by simp [map, kak])

theorem spinInteraction_eq_interaction (x y z : ℝ) :
    (spinInteraction x y z).matrix.toMatrix = turn 0 • interaction ⟨-x, -y, -z⟩ :=
  (@rebuilt_spinInteraction 0 1 x y z).eq_interaction (by simp [map, kak])

theorem pmInteraction_eq_interaction (t : ℝ) :
    (pmInteraction t).matrix.toMatrix = turn 0 • interaction ⟨t / (-2), t / (-2), 0⟩ :=
  (@rebuilt_pmInteraction 0 1 t).eq_interaction (by simp [map, kak])

theorem HasUnitary.of_interaction {g : TwoGate ℝ} {x y z : ℝ} {A : Matrix Both Both ℂ}
    (hg : g.matrix.toMatrix = turn 0 • interaction ⟨-x, -y, -z⟩)
    (hA : A = -I • ((x : ℂ) • Pauli.both Pauli.x + (y : ℂ) • Pauli.both Pauli.y +
      (z : ℂ) • Pauli.both Pauli.z)) : g.HasUnitary (NormedSpace.exp A) := by
  rw [hasUnitary_iff, hg, turn_zero, one_smul, hA, exp_neg_interaction]

theorem xy_hasUnitary (t : ℝ) : (xy t).HasUnitary
    (NormedSpace.exp ((I * (t / 4)) • (Pauli.both Pauli.x + Pauli.both Pauli.y))) := by
  refine .of_interaction (x := -(t / 4)) (y := -(t / 4)) (z := 0) ?_ ?_
  · rw [xy_eq_interaction, neg_neg, neg_zero]
  · push_cast
    module

/-- The exchange of the two sides shows the sign of the angle, unless the sine of its half is
zero. -/
theorem xy_hasUnitary_neg_iff (t : ℝ) : (xy t).HasUnitary
    (NormedSpace.exp (-(I * (t / 4)) • (Pauli.both Pauli.x + Pauli.both Pauli.y))) ↔
      Real.sin (t / 2) = 0 := by
  have hexp : NormedSpace.exp (-(I * (t / 4)) • (Pauli.both Pauli.x + Pauli.both Pauli.y)) =
      interaction ⟨-(t / 4), -(t / 4), -0⟩ := by
    rw [← exp_neg_interaction]
    congr 1
    push_cast
    module
  have hquarters : t / 4 + t / 4 = t / 2 := by ring
  have hquarters' : -(t / 4) + -(t / 4) = -(t / 2) := by ring
  rw [hasUnitary_iff, hexp, neg_zero, xy_eq_interaction, turn_zero, one_smul,
    interaction_eq_parityBlocks, interaction_eq_parityBlocks, sub_self, sub_self, hquarters,
    hquarters']
  constructor
  · intro h
    have hentry := congrFun₂ h (0, 1) (1, 0)
    have hsin : (Real.sin (t / 2) : ℂ) * I = Real.sin (-(t / 2)) * I := by
      simpa [parityBlocks, rotation, Pauli.x, -Complex.ofReal_sin] using hentry
    rw [mul_left_inj' Complex.I_ne_zero, Complex.ofReal_inj, Real.sin_neg] at hsin
    linarith
  · intro h
    have hflip : rotation (-(t / 2)) Pauli.x = rotation (t / 2) Pauli.x := by
      rw [rotation, rotation, Real.sin_neg, Real.cos_neg, h, neg_zero]
    rw [hflip]

end TwoGate

/-- The rotations, the Mølmer-Sørensen gates and the spin interactions are the exponentials of their
generators. So is the gate `xy`, with the sign of its angle the other way round than in the
interactions of a plus with a minus; with their sign it would be the same gate for multiples of a
full turn only. An exponential of products of Pauli matrices that commute is the product of their
exponentials, each of which is a cosine and a sine. -/
theorem unitary_eq_exp (t x y z : ℝ) :
    ((SingleGate.rotateX t).HasUnitary (NormedSpace.exp (-(I * (t / 2)) • Pauli.x)) ∧
      (SingleGate.rotateY t).HasUnitary (NormedSpace.exp (-(I * (t / 2)) • Pauli.y)) ∧
      (SingleGate.rotateZ t).HasUnitary (NormedSpace.exp (-(I * (t / 2)) • Pauli.z))) ∧
    (TwoGate.xy t).HasUnitary
      (NormedSpace.exp ((I * (t / 4)) • (Pauli.both Pauli.x + Pauli.both Pauli.y))) ∧
    ((TwoGate.xy t).HasUnitary
      (NormedSpace.exp (-(I * (t / 4)) • (Pauli.both Pauli.x + Pauli.both Pauli.y))) ↔
        ∃ k : ℤ, t = k * (2 * π)) ∧
    TwoGate.molmerSorensenXX.HasUnitary
      (NormedSpace.exp (-(I * (π / 4)) • Pauli.both Pauli.x)) ∧
    (TwoGate.variableMSXX t).HasUnitary
      (NormedSpace.exp (-(I * (t / 2)) • Pauli.both Pauli.x)) ∧
    (TwoGate.spinInteraction x y z).HasUnitary
      (NormedSpace.exp (-I • ((x : ℂ) • Pauli.both Pauli.x + (y : ℂ) • Pauli.both Pauli.y +
        (z : ℂ) • Pauli.both Pauli.z))) ∧
    (TwoGate.pmInteraction t).HasUnitary
      (NormedSpace.exp (-(I * t) • (Pauli.plus ⊗ₖ Pauli.minus + Pauli.minus ⊗ₖ Pauli.plus))) ∧
    Pauli.plus ⊗ₖ Pauli.minus + Pauli.minus ⊗ₖ Pauli.plus =
      (1 / 2 : ℂ) • (Pauli.both Pauli.x + Pauli.both Pauli.y) ∧
    NormedSpace.exp (-I • ((x : ℂ) • Pauli.both Pauli.x + (y : ℂ) • Pauli.both Pauli.y +
        (z : ℂ) • Pauli.both Pauli.z)) =
      ((Real.cos x : ℂ) • 1 - (I * Real.sin x) • Pauli.both Pauli.x) *
        ((Real.cos y : ℂ) • 1 - (I * Real.sin y) • Pauli.both Pauli.y) *
        ((Real.cos z : ℂ) • 1 - (I * Real.sin z) • Pauli.both Pauli.z) := by
  refine ⟨⟨?_, ?_, ?_⟩, TwoGate.xy_hasUnitary t, ?_, ?_, ?_, ?_, ?_,
    Pauli.plus_minus_add_minus_plus, ?_⟩
  · exact .of_rotation rfl Pauli.x_mul_x (rotateX_toMatrix t)
  · exact .of_rotation rfl Pauli.y_mul_y (rotateY_toMatrix t)
  · exact .of_rotation rfl Pauli.z_mul_z (rotateZ_eq_rotation t)
  · rw [TwoGate.xy_hasUnitary_neg_iff, Real.sin_eq_zero_iff]
    refine exists_congr fun k => ?_
    constructor <;> intro hk <;> linarith
  · refine .of_interaction (x := π / 4) (y := 0) (z := 0) ?_ ?_
    · rw [TwoGate.molmerSorensenXX_eq_interaction, neg_zero]
    · push_cast
      module
  · refine .of_interaction (x := t / 2) (y := 0) (z := 0) ?_ ?_
    · rw [TwoGate.variableMSXX_eq_interaction, neg_zero, mul_neg, mul_one_div]
    · push_cast
      module
  · exact .of_interaction (TwoGate.spinInteraction_eq_interaction x y z) rfl
  · refine .of_interaction (x := t / 2) (y := t / 2) (z := 0) ?_ ?_
    · rw [TwoGate.pmInteraction_eq_interaction, neg_zero, div_neg]
    · rw [Pauli.plus_minus_add_minus_plus]
      push_cast
      module
  · rw [exp_neg_interaction, interaction_neg_eq_mul]

/-- The gate `xy` of angle one is not the exponential with the other sign. -/
theorem xy_one_ne_exp : ¬ (TwoGate.xy 1).HasUnitary
    (NormedSpace.exp (-(I * (((1 : ℝ) : ℂ) / 4)) • (Pauli.both Pauli.x + Pauli.both Pauli.y))) := by
  have hpos : 0 < Real.sin (1 / 2) :=
    Real.sin_pos_of_pos_of_lt_pi (by norm_num) (by linarith [Real.pi_gt_three])
  rw [TwoGate.xy_hasUnitary_neg_iff]
  exact hpos.ne'

end QuantumOps
