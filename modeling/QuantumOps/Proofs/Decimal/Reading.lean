import QuantumOps.Proofs.Decimal.Rounding
import QuantumOps.Decimal.Shortest

/-! Reading decimals as doubles. The double that a decimal is read as depends on its value alone,
and the shortest decimal of a double is read as that double. -/
namespace QuantumOps.Decimal

open Double (IsCanonical)

/-- The number that a decimal stands for. -/
def value (d : Decimal) : ℚ := d.significand * 10 ^ d.exponent

section
variable {d d' : Decimal}

theorem value_eq_zero_iff : d.value = 0 ↔ d.significand = 0 := by
  simp [value, zpow_ne_zero]

theorem digitCount_bounds {n : Nat} (hn : n ≠ 0) :
    10 ^ (digitCount n - 1) ≤ n ∧ n < 10 ^ digitCount n := by
  have hpos : 0 < digitCount n := Nat.length_toDigits_pos
  refine ⟨?_, (Nat.length_toDigits_le_iff (by decide) hpos).mp (Nat.le_refl _)⟩
  by_cases hone : digitCount n = 1
  · rw [hone]
    exact Nat.pos_of_ne_zero hn
  · by_contra hlt
    have hle := (Nat.length_toDigits_le_iff (by decide) (by omega)).mpr (Nat.not_le.mp hlt)
    have hle : digitCount n ≤ digitCount n - 1 := hle
    omega

/-- The leading digit of a decimal stands at the power of ten below its value. -/
theorem digitCount_add_exponent (h : d.significand ≠ 0) :
    digitCount d.significand + d.exponent = Int.log 10 d.value + 1 := by
  have hvalue : 0 < d.value := by
    have hsignificand : (0 : ℚ) < d.significand := by exact_mod_cast Nat.pos_of_ne_zero h
    rw [value]
    positivity
  have hpos : 0 < digitCount d.significand := Nat.length_toDigits_pos
  have hlog : Int.log 10 d.value = (digitCount d.significand - 1 : Nat) + d.exponent := by
    obtain ⟨hlow, hhigh⟩ := digitCount_bounds h
    have hpow : (0 : ℚ) < 10 ^ d.exponent := by positivity
    rw [log_eq_iff (by decide) hvalue, add_right_comm, Nat.cast_ofNat, zpow_add₀ (by norm_num),
      zpow_add₀ (by norm_num), value]
    constructor
    · refine mul_le_mul_of_nonneg_right ?_ hpow.le
      exact_mod_cast hlow
    · refine mul_lt_mul_of_pos_right ?_ hpow
      rw [← Nat.cast_succ, Nat.succ_eq_add_one, Nat.sub_add_cancel hpos]
      exact_mod_cast hhigh
  omega

theorem scaleDown_value_ten (d : Decimal) :
    ((scaleDown 10 d.significand 1 (-d.exponent)).1 /
      (scaleDown 10 d.significand 1 (-d.exponent)).2 : ℚ) = d.value := by
  rw [scaleDown_value, value]
  simp

/-- Decimals of the same value are read as the same double. -/
theorem toDouble_congr (h : d.value = d'.value) (negative : Bool) :
    d.toDouble negative = d'.toDouble negative := by
  have hzero : d.significand = 0 ↔ d'.significand = 0 := by
    rw [← value_eq_zero_iff, ← value_eq_zero_iff, h]
  by_cases hd : d.significand = 0
  · simp [toDouble, hd, hzero.mp hd]
  · have hd' := mt hzero.mpr hd
    have htop : digitCount d.significand + d.exponent =
        digitCount d'.significand + d'.exponent := by
      rw [digitCount_add_exponent hd, digitCount_add_exponent hd', h]
    have hnearest := Double.nearest_congr (scaleDown_pos (by decide) Nat.one_pos _ _)
      (scaleDown_pos (by decide) Nat.one_pos _ _)
      ((scaleDown_value_ten d).trans (h.trans (scaleDown_value_ten d').symm)) negative
    simp only [toDouble, hd, hd', htop, hnearest]

theorem leastPower_le : (10 : ℚ) ^ (leastPower - 1) ≤ 2 ^ Double.minExponent := by
  have hnat : 2 ^ 1074 ≤ 10 ^ 331 := by decide +kernel
  have hcast : (2 ^ 1074 : ℚ) ≤ 10 ^ 331 := by exact_mod_cast hnat
  exact inv_anti₀ (by positivity) hcast

theorem le_greatestPower :
    (2 * Double.fullMantissa * 2 ^ Double.maxExponent : ℚ) ≤ 10 ^ greatestPower := by
  have hnat : 2 * Double.fullMantissa * 2 ^ 971 ≤ 10 ^ 309 := by decide +kernel
  have hcast : (2 * Double.fullMantissa * 2 ^ 971 : ℚ) ≤ 10 ^ 309 := by exact_mod_cast hnat
  exact hcast

/-- A double other than zero is neither too small nor too large to be looked at. -/
theorem log_bounds {m : Nat} {e : Int} (h : IsCanonical m e) (hm : 0 < m) {x : ℚ}
    (hx : x = m * 2 ^ e) : leastPower - 1 ≤ Int.log 10 x ∧ Int.log 10 x < greatestPower := by
  have hpos : 0 < x := by
    rw [hx]
    positivity
  rw [← Int.zpow_le_iff_le_log (by decide) hpos, ← Int.lt_zpow_iff_log_lt (by decide) hpos,
    Nat.cast_ofNat, hx]
  constructor
  · calc (10 : ℚ) ^ (leastPower - 1) ≤ 2 ^ Double.minExponent := leastPower_le
      _ ≤ 2 ^ e := zpow_le_zpow_right₀ (by norm_num) h.minExponent_le
      _ ≤ m * 2 ^ e := le_mul_of_one_le_left (by positivity) (by exact_mod_cast hm)
  · have hlt : (m : ℚ) < 2 * Double.fullMantissa := by exact_mod_cast h.lt
    calc (m * 2 ^ e : ℚ) < 2 * Double.fullMantissa * 2 ^ e :=
          mul_lt_mul_of_pos_right hlt (by positivity)
      _ ≤ 2 * Double.fullMantissa * 2 ^ Double.maxExponent := by
          gcongr
          · norm_num
          · exact h.le_maxExponent
      _ ≤ 10 ^ greatestPower := le_greatestPower

/-- A decimal with the value of a double is read as that double. -/
theorem toDouble_eq {m : Nat} {e : Int} (h : IsCanonical m e) (hd : d.value = m * 2 ^ e)
    (negative : Bool) : d.toDouble negative = .finite negative m e := by
  have hzero : d.significand = 0 ↔ m = 0 := by
    rw [← value_eq_zero_iff, hd]
    simp [zpow_ne_zero]
  by_cases hs : d.significand = 0
  · cases hzero.mp hs
    rw [h.exponent_zero, toDouble, if_pos (.inl hs)]
    rfl
  · have hm : 0 < m := Nat.pos_of_ne_zero (mt hzero.mpr hs)
    obtain ⟨hlow, hhigh⟩ := log_bounds h hm hd
    have htop := digitCount_add_exponent hs
    have hnearest := h.nearest_eq (scaleDown_pos (by decide) Nat.one_pos _ _)
      ((scaleDown_value_ten d).trans hd) negative
    rw [toDouble, if_neg (by omega), if_neg (by omega)]
    exact hnearest

/-! The shortest decimal. -/

theorem value_trim (d : Decimal) : (trim d).value = d.value := by
  fun_induction trim d with
  | case1 d h ih =>
    obtain ⟨n, hn⟩ := Nat.dvd_of_mod_eq_zero h.2
    rw [ih, value, value, hn, Nat.mul_div_cancel_left n (by decide), zpow_add₀ (by norm_num)]
    push_cast
    ring
  | case2 d h => rfl

theorem value_exact (m : Nat) (e : Int) : (exact m e).value = m * 2 ^ e := by
  rw [exact, value]
  split
  · rename_i h
    obtain ⟨n, rfl⟩ := Int.eq_ofNat_of_zero_le h
    simp
  · rename_i h
    obtain ⟨n, hn⟩ := Int.eq_ofNat_of_zero_le (by omega : 0 ≤ -e)
    have he : e = -n := by omega
    subst he
    have hsplit : (10 : ℚ) ^ n = 5 ^ n * 2 ^ n := by rw [← mul_pow]; norm_num
    simp [hsplit]
    field_simp

/-- The shortest decimal of a double is read as that double. -/
theorem toDouble_shortest {m : Nat} {e : Int} (h : IsCanonical m e) :
    (shortest m e).toDouble false = .finite false m e := by
  rw [shortest]
  split
  · rename_i hm
    subst hm
    exact toDouble_eq h (by simp [value]) false
  · rw [toDouble_congr (value_trim _)]
    cases hfound : (List.range 17).findSome? _ with
    | none => exact toDouble_eq h (value_exact m e) false
    | some d =>
      -- a candidate is taken only if it is read as the double
      obtain ⟨n, -, hn⟩ := List.exists_of_findSome?_eq_some hfound
      have hread := List.find?_some hn
      exact of_decide_eq_true hread

end
end QuantumOps.Decimal
