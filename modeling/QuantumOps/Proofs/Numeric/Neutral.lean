import QuantumOps.Proofs.Numeric.Equality

/-! Zeros and one as operands of doubles. Zeros are neutral for sums and one is neutral for products
and quotients, where what is rounded is the mantissa of the other operand with zeros after it. -/
namespace QuantumOps.Double

open Float.Model (UnpackedFloat Format totalExponent)
open Float.Model.UnpackedFloat (Sign ExtendedMantissa)

/-! Rounding of what needs no rounding. -/

/-- A number with the mantissa and the exponent is in the form that the format gives to it. -/
def InCanonicalForm (m : Nat) (e : Int) : Prop :=
  Format.binary64.targetExponent (totalExponent m e) = e

theorem inCanonicalForm_iff {m : Nat} {e : Int} :
    InCanonicalForm m e ↔ max ((m.log2 : Int) + e - 52) (-1074) = e := by
  simp only [InCanonicalForm, Format.targetExponent, totalExponent, Format.mantissaBits,
    Format.minExponent]
  omega

theorem log2_append_one (v : BitVec 52) : (1#1 ++ v).toNat.log2 = 52 := by
  have hlow : 2 ^ 52 ≤ (1#1 ++ v).toNat := by
    rw [BitVec.toNat_append]
    exact Nat.left_le_or
  exact (Nat.log2_eq_iff (by omega)).mpr ⟨hlow, (1#1 ++ v).isLt⟩

theorem inCanonicalForm_of_unpack {b : BitVec 64} {s : Sign} {m : Nat} {e : Int} {hm : 0 < m}
    (h : UnpackedFloat.unpack .binary64 b = .finite s m e hm) : InCanonicalForm m e := by
  have hbias : (Format.binary64.exponentBias : Int) = 1023 := rfl
  rw [inCanonicalForm_iff]
  rw [UnpackedFloat.unpack] at h
  dsimp only at h
  split at h
  · split at h <;> cases h
  · split at h
    · rename_i hexponent
      split at h
      · cases h
      · cases h
        have hlog : (@UnpackedFloat.unpackMantissa .binary64 b).toNat.log2 < 52 :=
          (Nat.log2_lt hm.ne').mpr (@UnpackedFloat.unpackMantissa .binary64 b).isLt
        rw [hexponent, hbias, BitVec.toNat_zero]
        omega
    · rename_i hexponent
      cases h
      have hpos : 0 < (@UnpackedFloat.unpackExponent .binary64 b).toNat :=
        Nat.pos_of_ne_zero fun h => hexponent (BitVec.eq_of_toNat_eq h)
      rw [log2_append_one, hbias]
      omega

theorem log2_mul_two_pow {m : Nat} (hm : 0 < m) (k : Nat) : (m * 2 ^ k).log2 = m.log2 + k := by
  induction k with
  | zero => rw [Nat.pow_zero, Nat.mul_one, Nat.add_zero]
  | succ k ih =>
    rw [Nat.pow_succ, ← Nat.mul_assoc, Nat.mul_comm, Nat.log2_two_mul (by positivity), ih,
      Nat.add_assoc]

/-- Zeros after a mantissa are shifted out without a trace. -/
theorem shiftRight_zeros (m k : Nat) :
    ExtendedMantissa.ofMantissaAndAccuracy (m * 2 ^ k) .exact >>> k = ⟨m, false, false⟩ := by
  change k.repeat ExtendedMantissa.shiftRightOne ⟨m * 2 ^ k, false, false⟩ = _
  induction k generalizing m with
  | zero => rw [Nat.pow_zero, Nat.mul_one, Nat.repeat]
  | succ k ih =>
    rw [Nat.repeat, Nat.pow_succ', ← Nat.mul_assoc, ih]
    simp [ExtendedMantissa.shiftRightOne]

section
variable {m : Nat} {e : Int}

theorem shiftToTargetExponent_zeros (h : InCanonicalForm m e) (hm : 0 < m) (k : Nat) :
    UnpackedFloat.shiftToTargetExponent .binary64 (m * 2 ^ k) (e - k) .exact =
      (⟨m, false, false⟩, e) := by
  have htotal : totalExponent (m * 2 ^ k) (e - k) = totalExponent m e := by
    simp only [totalExponent, log2_mul_two_pow hm]
    omega
  have hamount : (e - (e - k)).toNat = k := by omega
  have hexponent : e - k + k = e := Int.sub_add_cancel e k
  rw [UnpackedFloat.shiftToTargetExponent, htotal, h, UnpackedFloat.shiftToExponent]
  simp only [hamount, hexponent, shiftRight_zeros]

theorem roundWithAccuracy_zeros (h : InCanonicalForm m e) (hm : 0 < m) (s : Sign) (k : Nat) :
    UnpackedFloat.roundWithAccuracy .binary64 s (m * 2 ^ k) (e - k) .exact =
      .finite s m e hm := by
  have hagain := shiftToTargetExponent_zeros h hm 0
  rw [Nat.pow_zero, Nat.mul_one, Int.natCast_zero, Int.sub_zero] at hagain
  have hround : ExtendedMantissa.roundedMantissa ⟨m, false, false⟩ = m := rfl
  rw [UnpackedFloat.roundWithAccuracy, shiftToTargetExponent_zeros h hm k]
  simp only [hround, hagain, dif_neg hm.ne']

end

/-! Operands in the other order. -/

section
variable {spec : Format} {u v : UnpackedFloat}

theorem sign_mul_comm (s t : Sign) : s * t = t * s := by
  cases s <;> cases t <;> rfl

theorem unpacked_mul_comm : u.mul spec v = v.mul spec u := by
  cases u <;> cases v <;>
    simp only [UnpackedFloat.mul, sign_mul_comm, Nat.mul_comm, Int.add_comm]

theorem unpacked_add_comm : u.add spec v = v.add spec u := by
  cases u with
  | notANumber => cases v <;> rfl
  | infinity s =>
    cases v with
    | infinity t => cases s <;> cases t <;> rfl
    | _ => rfl
  | zero s =>
    cases v with
    | zero t => cases s <;> cases t <;> rfl
    | _ => rfl
  | finite s m e hm =>
    cases v with
    | finite t m' e' hm' => simp only [UnpackedFloat.add, Int.min_comm, Int.add_comm]
    | _ => rfl

end

section
variable {x y z : Float}

protected theorem mul_comm (x y : Float) : x * y = y * x := by
  rw [← shape_inj, shape_mul, shape_mul, unpacked_mul_comm]

protected theorem add_comm (x y : Float) : x + y = y + x := by
  rw [← shape_inj, shape_add, shape_add, unpacked_add_comm]

protected theorem sub_eq_add_neg (x y : Float) : x - y = x + -y := by
  rw [← shape_inj, shape_sub, shape_add, shape_neg, unpacked_sub_eq_add_neg]

/-! Zeros. -/

theorem stored_shape (x : Float) : stored (shape x) = shape x := stored_unpack _

theorem shape_of_isFinite (h : x.isFinite = true) :
    (x == 0) = true ∨ ∃ s m e, ∃ hm : 0 < m, shape x = .finite s m e hm := by
  have hshape : (shape x).isFinite = true := h
  rw [beq_zero_iff]
  cases hx : shape x with
  | notANumber | infinity s =>
    rw [hx] at hshape
    cases hshape
  | zero s => exact .inl ⟨s, rfl⟩
  | finite s m e hm => exact .inr ⟨s, m, e, hm, rfl⟩

theorem beq_self (h : x.isFinite = true) : (x == x) = true :=
  beq_self_iff.mpr (isNaN_of_isFinite h)

theorem beq_of_beq_zero (hx : (x == 0) = true) (hy : (y == 0) = true) : (x == y) = true :=
  beq_iff.mpr (.inr ⟨hx, hy⟩)

theorem isFinite_of_beq_zero (h : (x == 0) = true) : x.isFinite = true := by
  rcases eq_zero_of_beq h with rfl | rfl <;> rfl

theorem neg_beq_zero (h : (x == 0) = true) : (-x == 0) = true := by
  obtain ⟨s, hs⟩ := beq_zero_iff.mp h
  rw [beq_zero_iff, shape_neg, hs]
  exact ⟨-s, rfl⟩

theorem add_beq_zero (hx : (x == 0) = true) (hy : (y == 0) = true) : (x + y == 0) = true := by
  rcases eq_zero_of_beq hx with rfl | rfl <;> rcases eq_zero_of_beq hy with rfl | rfl <;> rfl

/-- Zeros of both signs are neutral as summands. -/
protected theorem zero_add (hx : x.isFinite = true) (hz : (z == 0) = true) :
    (x == z + x) = true := by
  rcases shape_of_isFinite hx with hzero | ⟨s, m, e, hm, hs⟩
  · exact beq_of_beq_zero hzero (add_beq_zero hz hzero)
  · obtain ⟨t, ht⟩ := beq_zero_iff.mp hz
    have hstored := stored_shape x
    have hsum : z + x = x := by
      rw [← shape_inj, shape_add, ht, hs]
      rwa [hs] at hstored
    rw [hsum]
    exact beq_self hx

theorem zero_mul_beq_zero (hx : x.isFinite = true) (hz : (z == 0) = true) :
    (z * x == 0) = true := by
  obtain ⟨t, ht⟩ := beq_zero_iff.mp hz
  rw [beq_zero_iff, shape_mul, ht]
  rcases shape_of_isFinite hx with hzero | ⟨s, m, e, hm, hs⟩
  · obtain ⟨s, hs⟩ := beq_zero_iff.mp hzero
    rw [hs]
    exact ⟨t * s, stored_zero _⟩
  · exact ⟨t * s, hs ▸ stored_zero _⟩

/-- Where a zero is divided at all, the quotient is zero. -/
theorem zero_div_beq_zero (hz : (z == 0) = true) (hx : x.isNaN = false) (hne : (x == 0) = false) :
    (z / x == 0) = true := by
  obtain ⟨t, ht⟩ := beq_zero_iff.mp hz
  rw [isNaN_eq, sign] at hx
  rw [Bool.eq_false_iff, ne_eq, beq_zero_iff] at hne
  rw [beq_zero_iff, shape_div, ht]
  cases hs : shape x with
  | notANumber =>
    rw [hs] at hx
    cases hx
  | zero s => exact absurd ⟨s, hs⟩ hne
  | infinity s | finite s m e hm => exact ⟨t / s, stored_zero _⟩

/-! One. -/

theorem eq_one_of_beq (h : (x == 1) = true) : x = 1 := by
  rcases beq_iff.mp h with ⟨-, h⟩ | ⟨-, h⟩
  · exact h
  · cases h

theorem shape_one : shape 1 = .finite .positive (2 ^ 52) (-52) (by decide) := rfl

theorem positive_mul (s : Sign) : .positive * s = s := by
  cases s <;> rfl

theorem div_positive (s : Sign) : s / .positive = s := by
  cases s <;> rfl

/-- A mantissa divided by that of one keeps its digits, and at most one zero more. -/
theorem divCore_one {m : Nat} {e : Int} (h : InCanonicalForm m e) : ∃ k : Nat,
    UnpackedFloat.divCore .binary64 m e (2 ^ 52) (-52) = (m * 2 ^ k, e - k, .exact) := by
  rw [inCanonicalForm_iff] at h
  have htarget : min (e - -52) (Format.binary64.targetExponent
      (totalExponent m e - totalExponent (2 ^ 52) (-52))) =
      e - (e - max ((m.log2 : Int) + e - 53) (-1074)).toNat := by
    simp only [Format.targetExponent, totalExponent, Format.mantissaBits, Format.minExponent,
      Nat.log2_two_pow]
    omega
  rw [UnpackedFloat.divCore, htarget]
  generalize (e - max ((m.log2 : Int) + e - 53) (-1074)).toNat = k
  refine ⟨k, ?_⟩
  have hamount : (e - -52 - (e - k)).toNat = k + 52 := by omega
  have hshift : m <<< (k + 52) = m * 2 ^ k * 2 ^ 52 := by
    rw [Nat.shiftLeft_eq, Nat.pow_add, Nat.mul_assoc]
  simp only [hamount, hshift, Nat.mul_div_cancel _ (Nat.two_pow_pos 52), Nat.mul_mod_left]
  rfl

protected theorem one_mul (x : Float) : 1 * x = x := by
  have hstored := stored_shape x
  rw [← shape_inj, shape_mul, shape_one]
  cases hs : shape x with
  | notANumber => exact stored_notANumber
  | infinity s => rw [UnpackedFloat.mul, positive_mul, stored_infinity]
  | zero s => rw [UnpackedFloat.mul, positive_mul, stored_zero]
  | finite s m e hm =>
    have hround := roundWithAccuracy_zeros (inCanonicalForm_of_unpack hs) hm s 52
    rw [hs] at hstored
    rw [UnpackedFloat.mul, positive_mul, Nat.mul_comm, Int.add_comm]
    exact (congrArg stored hround).trans hstored

protected theorem div_one (x : Float) : x / 1 = x := by
  have hstored := stored_shape x
  rw [← shape_inj, shape_div, shape_one]
  cases hs : shape x with
  | notANumber => exact stored_notANumber
  | infinity s => rw [UnpackedFloat.div, div_positive, stored_infinity]
  | zero s => rw [UnpackedFloat.div, div_positive, stored_zero]
  | finite s m e hm =>
    have hform := inCanonicalForm_of_unpack hs
    obtain ⟨k, hk⟩ := divCore_one hform
    rw [hs] at hstored
    rw [UnpackedFloat.div, div_positive, hk]
    exact (congrArg stored (roundWithAccuracy_zeros hform hm s k)).trans hstored

end
end QuantumOps.Double
