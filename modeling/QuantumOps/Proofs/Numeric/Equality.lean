import QuantumOps.Proofs.Numeric.Double

/-! Equality of doubles: each equals itself only, except that the two zeros are equal and that what
has no value equals nothing. -/
namespace QuantumOps.Double

open Float.Model (UnpackedFloat)

theorem compare_eq_iff {u v : UnpackedFloat} : u.compare v = some .eq ↔
    (signOf u).isSome ∧ u = v ∨ (∃ s, u = .zero s) ∧ ∃ t, v = .zero t := by
  cases u with
  | notANumber => cases v <;> simp [UnpackedFloat.compare, signOf]
  | infinity s =>
    cases v with
    | infinity t => cases s <;> cases t <;> simp [UnpackedFloat.compare, signOf] <;> decide
    | _ => cases s <;> simp [UnpackedFloat.compare]
  | zero s =>
    cases v with
    | zero t => simp [UnpackedFloat.compare]
    | infinity t | finite t m e hm => cases t <;> simp [UnpackedFloat.compare]
    | notANumber => simp [UnpackedFloat.compare]
  | finite s m e hm =>
    cases v with
    | finite t m' e' hm' =>
      cases s <;> cases t <;>
        simp [UnpackedFloat.compare, signOf, Ordering.then_eq_eq, and_comm]
    | zero t | infinity t => cases s <;> cases t <;> simp [UnpackedFloat.compare]
    | notANumber => cases s <;> simp [UnpackedFloat.compare]

section
variable {x y : Float}

theorem beq_iff_compare : (x == y) = true ↔ (shape x).compare (shape y) = some .eq := by
  have hbeq : (x == y) = ((shape x).compare (shape y) == some .eq) := rfl
  rw [hbeq, beq_iff_eq]

theorem beq_iff : (x == y) = true ↔
    x.isNaN = false ∧ x = y ∨ (x == 0) = true ∧ (y == 0) = true := by
  rw [beq_iff_compare, compare_eq_iff, shape_inj, isNaN_eq, Option.isNone_eq_false_iff,
    beq_zero_iff, beq_zero_iff, sign]

/-- A double equals itself unless it has no value. -/
theorem beq_self_iff : (x == x) = true ↔ x.isNaN = false := by
  rw [beq_iff, and_iff_left rfl, and_self, or_iff_left_iff_imp]
  intro h
  obtain ⟨s, hs⟩ := beq_zero_iff.mp h
  rw [isNaN_eq, sign, hs]
  rfl

instance partialEquivBEq : PartialEquivBEq Float where
  symm {x y} h := by
    rw [beq_iff] at h ⊢
    rcases h with ⟨hx, rfl⟩ | ⟨hx, hy⟩
    · exact .inl ⟨hx, rfl⟩
    · exact .inr ⟨hy, hx⟩
  trans {x y z} h h' := by
    rw [beq_iff] at h
    rcases h with ⟨-, rfl⟩ | ⟨hx, hy⟩
    · exact h'
    · rw [beq_iff] at h' ⊢
      rcases h' with ⟨-, rfl⟩ | ⟨-, hz⟩
      · exact .inr ⟨hx, hy⟩
      · exact .inr ⟨hx, hz⟩

/-- The double with the positive zero for both zeros. -/
def level (x : Float) : Float := if x == 0 then 0 else x

/-- Doubles are equal just when they have values that are the same up to the sign of zero. -/
theorem beq_iff_level : (x == y) = true ↔ x.isNaN = false ∧ level x = level y := by
  rw [← beq_self_iff]
  constructor
  · intro h
    refine ⟨BEq.trans h (BEq.symm h), ?_⟩
    rcases beq_iff.mp h with ⟨-, rfl⟩ | ⟨hx, hy⟩
    · rfl
    · rw [level, level, if_pos hx, if_pos hy]
  · rintro ⟨hx, h⟩
    rw [level, level] at h
    by_cases hzero : (x == 0) = true
    · rw [if_pos hzero] at h
      split at h
      · rename_i hy
        exact BEq.trans hzero (BEq.symm hy)
      · exact h ▸ hzero
    · rw [if_neg hzero] at h
      split at h
      · rw [h] at hzero
        exact absurd (by decide) hzero
      · exact h ▸ hx

end

/-! The distance from zero. -/

theorem exists_unpack_abs (b : BitVec 64) : ∃ b' : BitVec 64,
    UnpackedFloat.unpack .binary64 b' = (UnpackedFloat.unpack .binary64 b).abs := by
  refine ⟨UnpackedFloat.packComponents .binary64 .positive
    (@UnpackedFloat.unpackExponent .binary64 b) (@UnpackedFloat.unpackMantissa .binary64 b), ?_⟩
  rw [UnpackedFloat.unpack, UnpackedFloat.unpack]
  simp only [UnpackedFloat.unpackExponent_packComponents,
    UnpackedFloat.unpackMantissa_packComponents, UnpackedFloat.unpackSign_packComponents,
    UnpackedFloat.Sign.ofBitVec_toBitVec]
  split
  · split <;> rfl
  · split
    · split <;> rfl
    · rfl

section
variable {x y : Float}

/-- Nothing is lost when the sign is left out. -/
theorem shape_abs_eq : shape x.abs = (shape x).abs := by
  obtain ⟨b, hb⟩ := exists_unpack_abs x.toBits.toBitVec
  have hshape : shape x = UnpackedFloat.unpack .binary64 x.toBits.toBitVec := rfl
  rw [shape_abs, hshape, ← hb, stored_unpack]

theorem lt_zero_eq (x : Float) : decide (x < 0) = (shape x).lt (.zero .positive) :=
  Bool.eq_iff_iff.mpr (decide_eq_true_iff.trans lt_iff)

/-- Its distance from zero and whether it is below zero determine a double up to the sign of
zero. -/
theorem level_eq_of_abs (hx : x.isNaN = false) (habs : x.abs = y.abs)
    (hlt : decide (x < 0) = decide (y < 0)) : level x = level y := by
  have hshape : (shape x).abs = (shape y).abs := by
    rw [← shape_abs_eq, ← shape_abs_eq, habs]
  rw [lt_zero_eq, lt_zero_eq] at hlt
  rw [isNaN_eq, sign] at hx
  refine (beq_iff_level.mp (beq_iff_compare.mpr (compare_eq_iff.mpr ?_))).2
  cases hcase : shape x with
  | notANumber =>
    rw [hcase] at hx
    cases hx
  | zero s =>
    cases hcase' : shape y with
    | zero t => exact .inr ⟨⟨s, rfl⟩, t, rfl⟩
    | _ => simp [hcase, hcase', UnpackedFloat.abs] at hshape
  | infinity s =>
    cases hcase' : shape y with
    | infinity t =>
      rw [hcase, hcase'] at hlt
      cases s <;> cases t <;> first
        | exact .inl ⟨rfl, rfl⟩
        | cases hlt
    | _ => simp [hcase, hcase', UnpackedFloat.abs] at hshape
  | finite s m e hm =>
    cases hcase' : shape y with
    | finite t m' e' hm' =>
      rw [hcase, hcase'] at hlt hshape
      obtain ⟨-, rfl, rfl⟩ := UnpackedFloat.finite.inj hshape
      cases s <;> cases t <;> first
        | exact .inl ⟨rfl, rfl⟩
        | cases hlt
    | _ => simp [hcase, hcase', UnpackedFloat.abs] at hshape

end
end QuantumOps.Double
