import QuantumOps.Proofs.Numeric.Double
import QuantumOps.Proofs.Decimal.Rounding

/-! The numbers of the machine as doubles. The 64-bit layout is read and written without loss where
there is a value, and the sign bit is all that a number and its negation differ in. -/
namespace QuantumOps.Double

open Float.Model (UnpackedFloat Format)
open Float.Model.UnpackedFloat (Sign unpack pack unpackExponent unpackMantissa unpackSign)
open Decimal.Double (IsCanonical fullMantissa minExponent maxExponent)

/-! The fields of the layout. -/

section
variable (b : BitVec 64)

theorem toNat_unpackExponent : (@unpackExponent .binary64 b).toNat =
    b.toNat / fullMantissa % 2048 := by
  rw [UnpackedFloat.unpackExponent_def, BitVec.extractLsb'_toNat, Nat.shiftRight_eq_div_pow]
  rfl

theorem toNat_unpackMantissa : (@unpackMantissa .binary64 b).toNat =
    b.toNat % fullMantissa := by
  rw [UnpackedFloat.unpackMantissa_def, BitVec.extractLsb'_toNat, Nat.shiftRight_zero]
  rfl

theorem toNat_unpackSign : (@unpackSign .binary64 b).toNat =
    b.toNat / (2048 * fullMantissa) := by
  rw [UnpackedFloat.unpackSign_def, BitVec.extractLsb'_toNat, Nat.shiftRight_eq_div_pow]
  have hlt : b.toNat < 2 ^ 64 := b.isLt
  simp [fullMantissa]
  omega

theorem isFinite_unpack : (unpack .binary64 b).isFinite = true ↔
    b.toNat / fullMantissa % 2048 ≠ 2047 := by
  rw [← toNat_unpackExponent]
  have hones : @unpackExponent .binary64 b = -1#_ ↔
      (@unpackExponent .binary64 b).toNat = 2047 := BitVec.toNat_inj.symm
  rw [ne_eq, ← hones, unpack]
  split
  · rename_i h
    split <;> simp [UnpackedFloat.isFinite, h]
  · rename_i h
    refine iff_of_true ?_ h
    split
    · split <;> rfl
    · rfl

end

/-! The layout of a magnitude, without the sign bit. -/

/-- The bits of a finite double other than its sign. -/
def magnitudeBits (mantissa : Nat) (exponent : Int) : Nat :=
  if mantissa < fullMantissa then mantissa
  else (exponent + 1074).toNat * fullMantissa + mantissa

section
variable {m : Nat} {e : Int}

theorem magnitudeBits_lt (h : IsCanonical m e) : magnitudeBits m e < 2047 * fullMantissa := by
  rw [magnitudeBits]
  split
  · omega
  · rename_i hm
    have hexponent := h.le_maxExponent
    have hmantissa := h.lt
    rw [maxExponent] at hexponent
    rw [fullMantissa] at *
    omega

theorem toNat_toBits (h : IsCanonical m e) (negative : Bool) :
    (Decimal.Double.finite negative m e).toBits.toNat =
      (if negative then 2048 * fullMantissa else 0) + magnitudeBits m e := by
  have hlt := magnitudeBits_lt h
  have hbits : (Decimal.Double.finite negative m e).toBits = UInt64.ofNat
      (if negative then 2048 * fullMantissa + magnitudeBits m e else magnitudeBits m e) := by
    rw [Decimal.Double.toBits, magnitudeBits]
    dsimp only
    split <;> rfl
  rw [hbits, UInt64.toNat_ofNat']
  rw [fullMantissa] at *
  split <;> omega

end

/-- A layout that stands for a number is that of its sign and its magnitude. -/
theorem ofBits_eq {bits : UInt64} (h : bits.toNat / fullMantissa % 2048 ≠ 2047) :
    ∃ negative m e, Decimal.Double.ofBits bits = .finite negative m e ∧ IsCanonical m e ∧
      bits.toNat = (if negative then 2048 * fullMantissa else 0) + magnitudeBits m e := by
  have hlt : bits.toNat < 2 ^ 64 := bits.toNat_lt
  have hmod := Nat.mod_lt bits.toNat (by decide : 0 < fullMantissa)
  have hsign : (if decide (bits.toNat / (2048 * fullMantissa) = 1) then 2048 * fullMantissa
      else 0) = bits.toNat - bits.toNat % (2048 * fullMantissa) := by
    by_cases hs : bits.toNat / (2048 * fullMantissa) = 1
    · rw [decide_eq_true hs, if_pos rfl]
      rw [fullMantissa] at *
      omega
    · rw [decide_eq_false hs, if_neg Bool.false_ne_true]
      rw [fullMantissa] at *
      omega
  rw [Decimal.Double.ofBits]
  simp only [if_neg h]
  split
  · rename_i hfield
    refine ⟨_, _, _, rfl, .inl ⟨hmod, rfl⟩, ?_⟩
    rw [hsign, magnitudeBits, if_pos hmod]
    rw [fullMantissa] at *
    omega
  · rename_i hfield
    refine ⟨_, _, _, rfl, .inr ⟨⟨Nat.le_add_right _ _, by omega⟩, ?_, ?_⟩, ?_⟩
    · rw [minExponent]
      omega
    · rw [maxExponent]
      omega
    · rw [hsign, magnitudeBits, if_neg (by omega)]
      rw [fullMantissa] at *
      omega

/-- The sign bit. -/
def signBit (x : Float) : Bool := decide (2 ^ 63 ≤ x.toBits.toNat)

section
variable {x : Float}

/-- A number of the machine is a finite double with the same sign, and that double is the number. -/
theorem ofFloat_of_isFinite (h : x.isFinite = true) : ∃ m e, IsCanonical m e ∧
    Decimal.Double.ofFloat x = .finite (signBit x) m e ∧
    (Decimal.Double.finite (signBit x) m e).toFloat = x := by
  obtain ⟨negative, m, e, hx, hcanonical, hbits⟩ :=
    ofBits_eq ((isFinite_unpack x.toBits.toBitVec).mp h)
  have hsign : signBit x = negative := by
    have hlt := magnitudeBits_lt hcanonical
    have hbits : x.toBits.toNat = _ := hbits
    rw [signBit, hbits]
    rw [fullMantissa] at *
    cases negative with
    | false => exact decide_eq_false (by simp; omega)
    | true => exact decide_eq_true (by simp)
  rw [hsign]
  refine ⟨m, e, hcanonical, hx, ?_⟩
  have hto : (Decimal.Double.finite negative m e).toBits = x.toBits :=
    UInt64.toNat_inj.mp ((toNat_toBits hcanonical negative).trans hbits.symm)
  rw [Decimal.Double.toFloat, hto, Float.ofBits_toBits]

/-- An infinity or what is no number is no finite double. -/
theorem ofFloat_of_not_isFinite (h : x.isFinite = false) :
    Decimal.Double.ofFloat x = .nan ∨
      ∃ negative, Decimal.Double.ofFloat x = .infinite negative := by
  have hfield : x.toBits.toNat / fullMantissa % 2048 = 2047 := by
    by_contra hne
    have hfinite : x.isFinite = true := (isFinite_unpack x.toBits.toBitVec).mpr hne
    rw [h] at hfinite
    cases hfinite
  rw [Decimal.Double.ofFloat, Decimal.Double.ofBits]
  simp only [if_pos hfield]
  split
  · exact .inr ⟨_, rfl⟩
  · exact .inl rfl

/-! Negation. -/

theorem neg_ofBits {bits bits' : UInt64} (hlt : bits.toNat < 2047 * fullMantissa)
    (h : bits'.toNat = 2048 * fullMantissa + bits.toNat) :
    -Float.ofBits bits = Float.ofBits bits' := by
  have hbits : bits'.toBitVec.toNat = 2048 * fullMantissa + bits.toBitVec.toNat := h
  have hlt : bits.toBitVec.toNat < 2047 * fullMantissa := hlt
  have hunpack : unpack .binary64 bits'.toBitVec = (unpack .binary64 bits.toBitVec).neg := by
    refine unpack_eq_neg (BitVec.eq_of_toNat_eq ?_) (BitVec.eq_of_toNat_eq ?_) ?_
    · rw [toNat_unpackExponent, toNat_unpackExponent, hbits, fullMantissa]
      omega
    · rw [toNat_unpackMantissa, toNat_unpackMantissa, hbits, fullMantissa]
      omega
    · have hpositive : @unpackSign .binary64 bits.toBitVec = 0#1 :=
        BitVec.eq_of_toNat_eq ((toNat_unpackSign _).trans (Nat.div_eq_of_lt (by omega)))
      have hnegative : @unpackSign .binary64 bits'.toBitVec = 1#1 := by
        refine BitVec.eq_of_toNat_eq ((toNat_unpackSign _).trans ?_)
        rw [hbits, Nat.add_div_left _ (by decide), Nat.div_eq_of_lt (by omega)]
        rfl
      rw [hpositive, hnegative]
      rfl
  have hshape : ∀ bits : UInt64, shape (Float.ofBits bits) = unpack .binary64 bits.toBitVec :=
    fun bits => stored_unpack bits.toBitVec
  rw [← shape_inj, shape_neg, hshape, hshape, hunpack]

/-- The negation of a finite double has the other sign. -/
theorem neg_toFloat {m : Nat} {e : Int} (h : IsCanonical m e) :
    -(Decimal.Double.finite false m e).toFloat = (Decimal.Double.finite true m e).toFloat := by
  have hpositive := toNat_toBits h false
  have hnegative := toNat_toBits h true
  rw [if_neg Bool.false_ne_true, Nat.zero_add] at hpositive
  rw [if_pos rfl, ← hpositive] at hnegative
  exact neg_ofBits (hpositive ▸ magnitudeBits_lt h) hnegative

end

end QuantumOps.Double
