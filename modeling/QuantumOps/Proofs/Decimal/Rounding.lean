import Mathlib
import QuantumOps.Decimal.Double

/-! Rounding to doubles. What a quotient is rounded to depends on its value alone, and a value that
a double has is rounded to that double. -/
namespace QuantumOps.Decimal

section
variable {num den num' den' : Nat}

/-! Halves to even. -/

theorem roundHalfEven_mul {k : Nat} (hk : 0 < k) :
    roundHalfEven (k * num) (k * den) = roundHalfEven num den := by
  have hlt : ∀ a b : Nat, 2 * (k * a) < k * b ↔ 2 * a < b := by
    intro a b
    rw [Nat.mul_left_comm, Nat.mul_lt_mul_left hk]
  have hgt : ∀ a b : Nat, k * b < 2 * (k * a) ↔ b < 2 * a := by
    intro a b
    rw [Nat.mul_left_comm, Nat.mul_lt_mul_left hk]
  simp only [roundHalfEven, Nat.mul_div_mul_left _ _ hk, Nat.mul_mod_mul_left, hlt, hgt]

/-- Equal quotients are rounded alike. -/
theorem roundHalfEven_congr (hd : 0 < den) (hd' : 0 < den')
    (h : (num / den : ℚ) = num' / den') : roundHalfEven num den = roundHalfEven num' den' := by
  have hcross : den' * num = den * num' := by
    rw [div_eq_div_iff (by positivity) (by positivity)] at h
    have hnat : num * den' = num' * den := by exact_mod_cast h
    rw [Nat.mul_comm den', hnat, Nat.mul_comm]
  calc roundHalfEven num den = roundHalfEven (den' * num) (den' * den) :=
        (roundHalfEven_mul hd').symm
    _ = roundHalfEven (den * num') (den * den') := by rw [hcross, Nat.mul_comm den']
    _ = roundHalfEven num' den' := roundHalfEven_mul hd

theorem roundHalfEven_natCast (hd : 0 < den) {m : Nat} (h : (num / den : ℚ) = m) :
    roundHalfEven num den = m := by
  have hone : (num / den : ℚ) = (m : Nat) / (1 : Nat) := by simpa using h
  rw [roundHalfEven_congr hd Nat.one_pos hone]
  simp [roundHalfEven, Nat.mod_one]

/-! Scaling. -/

theorem scaleDown_pos {base : Nat} (hb : 0 < base) (hd : 0 < den) (num : Nat) (place : Int) :
    0 < (scaleDown base num den place).2 := by
  rw [scaleDown]
  split
  · exact Nat.mul_pos hd (Nat.pow_pos hb)
  · exact hd

theorem scaleDown_value (base num den : Nat) (place : Int) :
    ((scaleDown base num den place).1 / (scaleDown base num den place).2 : ℚ) =
      num / den / (base : ℚ) ^ place := by
  rw [scaleDown]
  split
  · rename_i h
    obtain ⟨n, rfl⟩ := Int.eq_ofNat_of_zero_le h
    simp [div_div]
  · rename_i h
    obtain ⟨n, hn⟩ := Int.eq_ofNat_of_zero_le (by omega : 0 ≤ -place)
    have hplace : place = -n := by omega
    subst hplace
    simp [div_mul_eq_mul_div]

/-! The leading binary digit. -/

theorem log_eq_iff {b : Nat} (hb : 1 < b) {x : ℚ} (hx : 0 < x) {z : Int} :
    Int.log b x = z ↔ (b : ℚ) ^ z ≤ x ∧ x < (b : ℚ) ^ (z + 1) := by
  rw [Int.zpow_le_iff_le_log hb hx, Int.lt_zpow_iff_log_lt hb hx]
  omega

/-- Between the powers of two around it and the next ones. -/
theorem div_log2_bounds (hn : 0 < num) (hd : 0 < den) :
    (2 : ℚ) ^ ((num.log2 : Int) - den.log2 - 1) ≤ num / den ∧
      (num / den : ℚ) < 2 ^ ((num.log2 : Int) - den.log2 + 1) := by
  have hnum : (2 ^ num.log2 : ℚ) ≤ num := by exact_mod_cast Nat.log2_self_le hn.ne'
  have hnum' : (num : ℚ) < 2 ^ (num.log2 + 1) := by exact_mod_cast Nat.lt_log2_self
  have hden : (2 ^ den.log2 : ℚ) ≤ den := by exact_mod_cast Nat.log2_self_le hd.ne'
  have hden' : (den : ℚ) < 2 ^ (den.log2 + 1) := by exact_mod_cast Nat.lt_log2_self
  have hpos : (0 : ℚ) < den := by exact_mod_cast hd
  constructor
  · have hsplit : (2 : ℚ) ^ ((num.log2 : Int) - den.log2 - 1) =
        2 ^ num.log2 / 2 ^ (den.log2 + 1) := by
      rw [sub_sub, zpow_sub₀ two_ne_zero]
      norm_cast
    rw [hsplit]
    exact div_le_div₀ (by positivity) hnum hpos hden'.le
  · have hsplit : (2 : ℚ) ^ ((num.log2 : Int) - den.log2 + 1) =
        2 ^ (num.log2 + 1) / 2 ^ den.log2 := by
      rw [sub_add_eq_add_sub, zpow_sub₀ two_ne_zero]
      norm_cast
    rw [hsplit]
    exact div_lt_div₀ hnum' hden (by positivity) (by positivity)

theorem binaryExponent_eq (hn : 0 < num) (hd : 0 < den) :
    binaryExponent num den = Int.log 2 (num / den : ℚ) := by
  have hx : (0 : ℚ) < num / den := by positivity
  obtain ⟨hlow, hhigh⟩ := div_log2_bounds hn hd
  have hscaled := scaleDown_value 2 num den (num.log2 - den.log2)
  have hpos := scaleDown_pos Nat.two_pos hd num (num.log2 - den.log2)
  refine ((log_eq_iff Nat.one_lt_two hx).mpr ?_).symm
  rw [binaryExponent]
  generalize scaleDown 2 num den (num.log2 - den.log2) = scaled at hscaled hpos
  -- the guess is right just when the scaled quotient is at least one
  have hguess : scaled.2 ≤ scaled.1 ↔ (2 : ℚ) ^ ((num.log2 : Int) - den.log2) ≤ num / den := by
    have hden : (0 : ℚ) < scaled.2 := by exact_mod_cast hpos
    rw [← Nat.cast_le (α := ℚ), ← one_le_div hden, hscaled, Nat.cast_ofNat,
      one_le_div (by positivity)]
  split
  · rename_i h
    exact ⟨hguess.mp h, hhigh⟩
  · rename_i h
    rw [sub_add_cancel]
    exact ⟨hlow, lt_of_not_ge (mt hguess.mpr h)⟩

/-! Doubles. -/

namespace Double

/-- The mantissa and the exponent are those of a finite double. -/
def IsCanonical (mantissa : Nat) (exponent : Int) : Prop :=
  mantissa < fullMantissa ∧ exponent = minExponent ∨
    (fullMantissa ≤ mantissa ∧ mantissa < 2 * fullMantissa) ∧
      minExponent ≤ exponent ∧ exponent ≤ maxExponent

/-- Equal quotients are rounded to the same double. -/
theorem nearest_congr (hd : 0 < den) (hd' : 0 < den') (h : (num / den : ℚ) = num' / den')
    (negative : Bool) : nearest negative num den = nearest negative num' den' := by
  have hzero : num = 0 ↔ num' = 0 := by
    have hnum := congrArg (· = 0) h
    simpa [hd.ne', hd'.ne'] using hnum
  by_cases hn : num = 0
  · rw [nearest, nearest, if_pos hn, if_pos (hzero.mp hn)]
  · have hn' : num' ≠ 0 := mt hzero.mpr hn
    have hbinary : binaryExponent num den = binaryExponent num' den' := by
      rw [binaryExponent_eq (Nat.pos_of_ne_zero hn) hd,
        binaryExponent_eq (Nat.pos_of_ne_zero hn') hd', h]
    rw [nearest, nearest, if_neg hn, if_neg hn', hbinary]
    refine congrArg (ofRounded negative · _) (roundHalfEven_congr ?_ ?_ ?_)
    · exact scaleDown_pos Nat.two_pos hd _ _
    · exact scaleDown_pos Nat.two_pos hd' _ _
    · rw [scaleDown_value, scaleDown_value, h]

/-- The exponent of the last binary digit of a finite double. -/
theorem IsCanonical.max_exponent {m : Nat} {e : Int} (h : IsCanonical m e) (hm : 0 < m) {x : ℚ}
    (hx : x = m * 2 ^ e) : max (Int.log 2 x - 52) minExponent = e := by
  have hpos : (0 : ℚ) < 2 ^ e := by positivity
  have hx₀ : 0 < x := by
    rw [hx]
    positivity
  have hpow : ∀ n : Nat, (2 : ℚ) ^ (n + e) = 2 ^ n * 2 ^ e := by
    intro n
    rw [zpow_add₀ two_ne_zero, zpow_natCast]
  rcases h with ⟨hlt, he⟩ | ⟨⟨hge, hlt⟩, he⟩
  · have hlog : Int.log 2 x < 52 + e := by
      rw [← Int.lt_zpow_iff_log_lt Nat.one_lt_two hx₀, hx]
      have hm' : (m : ℚ) < 2 ^ 52 := by exact_mod_cast hlt
      exact (hpow 52).symm ▸ mul_lt_mul_of_pos_right hm' hpos
    omega
  · have hlog : Int.log 2 x = 52 + e := by
      rw [log_eq_iff Nat.one_lt_two hx₀, hx]
      have hm : (2 ^ 52 : ℚ) ≤ m := by exact_mod_cast hge
      have hm' : (m : ℚ) < 2 ^ 53 := by exact_mod_cast hlt
      constructor
      · exact (hpow 52).symm ▸ mul_le_mul_of_nonneg_right hm hpos.le
      · rw [add_right_comm]
        exact (hpow 53).symm ▸ mul_lt_mul_of_pos_right hm' hpos
    omega

theorem IsCanonical.lt {m : Nat} {e : Int} (h : IsCanonical m e) : m < 2 * fullMantissa := by
  rcases h with ⟨hlt, -⟩ | ⟨⟨-, hlt⟩, -⟩
  · omega
  · exact hlt

theorem IsCanonical.le_maxExponent {m : Nat} {e : Int} (h : IsCanonical m e) :
    e ≤ maxExponent := by
  rcases h with ⟨-, rfl⟩ | ⟨-, -, he⟩
  · decide
  · exact he

theorem IsCanonical.minExponent_le {m : Nat} {e : Int} (h : IsCanonical m e) :
    minExponent ≤ e := by
  rcases h with ⟨-, rfl⟩ | ⟨-, he, -⟩
  · exact Int.le_refl _
  · exact he

theorem IsCanonical.exponent_zero {e : Int} (h : IsCanonical 0 e) : e = minExponent := by
  rcases h with ⟨-, he⟩ | ⟨⟨hge, -⟩, -⟩
  · exact he
  · exact absurd hge (by decide)

theorem IsCanonical.ofRounded_eq {m : Nat} {e : Int} (h : IsCanonical m e) (negative : Bool) :
    ofRounded negative m e = .finite negative m e := by
  have hm : m ≠ 2 * fullMantissa := h.lt.ne
  simp [ofRounded, hm, h.le_maxExponent]

/-- A value that a double has is rounded to that double. -/
theorem IsCanonical.nearest_eq {m : Nat} {e : Int} (h : IsCanonical m e) (hd : 0 < den)
    (hx : (num / den : ℚ) = m * 2 ^ e) (negative : Bool) :
    nearest negative num den = .finite negative m e := by
  have hzero : num = 0 ↔ m = 0 := by
    have hnum := congrArg (· = 0) hx
    simpa [hd.ne', zpow_ne_zero] using hnum
  rw [nearest]
  split
  · rename_i hn
    cases hzero.mp hn
    rw [h.exponent_zero]
    rfl
  · rename_i hn
    have hm : 0 < m := Nat.pos_of_ne_zero (mt hzero.mpr hn)
    have hscaled := scaleDown_value 2 num den e
    rw [hx, Nat.cast_ofNat, mul_div_cancel_right₀ _ (zpow_ne_zero e two_ne_zero)] at hscaled
    have hround := roundHalfEven_natCast (scaleDown_pos Nat.two_pos hd num e) hscaled
    rw [binaryExponent_eq (Nat.pos_of_ne_zero hn) hd, h.max_exponent hm hx]
    exact (congrArg (ofRounded negative · e) hround).trans (h.ofRounded_eq negative)

end Double

end
end QuantumOps.Decimal
