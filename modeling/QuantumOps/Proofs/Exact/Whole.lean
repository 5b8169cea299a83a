import Mathlib
import QuantumOps.Decimal.Numeral
import QuantumOps.Proofs.Scalar.Laws

/-! Whole numbers as the numbers of the library. Results that are whole are exact, as they are with
doubles of moderate size, and all others have no value. The laws of numbers hold for them. -/
namespace QuantumOps
open Expression (Digits Fraction Continues)

/-- A whole number, or the result of what does not give one. -/
inductive Whole
  | value (n : ℤ)
  | undefined
  deriving DecidableEq

namespace Whole

def map (f : ℤ → Whole) : Whole → Whole
  | value n => f n
  | undefined => undefined

def map₂ (f : ℤ → ℤ → Whole) : Whole → Whole → Whole
  | value m, value n => f m n
  | _, _ => undefined

/-- The result if the condition holds. -/
def onlyIf (c : Prop) [Decidable c] (n : ℤ) : Whole := if c then value n else undefined

/-- The digits after a minus sign if there is one. -/
def digits : ℤ → List Char
  | .ofNat n => Nat.toDigits 10 n
  | .negSucc n => '-' :: Nat.toDigits 10 (n + 1)

def text : Whole → String
  | value n => String.ofList (digits n)
  | undefined => "nan"

/-- The number that a numeral denotes, if it is whole. -/
def ofDecimal (d : Decimal) : Whole :=
  match d.exponent with
  | .ofNat k => value (d.significand * 10 ^ k)
  | .negSucc k => onlyIf (10 ^ (k + 1) ∣ d.significand) (d.significand / 10 ^ (k + 1))

instance : Numeric Whole where
  add := map₂ fun m n => value (m + n)
  sub := map₂ fun m n => value (m - n)
  mul := map₂ fun m n => value (m * n)
  div := map₂ fun m n => onlyIf (n ≠ 0 ∧ n ∣ m) (m / n)
  neg := map fun n => value (-n)
  beq
    | value m, value n => m == n
    | _, _ => false
  ofNat n := value n
  pi := undefined
  euler := undefined
  sqrt := map fun n => onlyIf (n.sqrt * n.sqrt = n) n.sqrt
  sin := map fun n => onlyIf (n = 0) 0
  cos := map fun n => onlyIf (n = 0) 1
  tan := map fun n => onlyIf (n = 0) 0
  asin := map fun n => onlyIf (n = 0) 0
  acos := map fun n => onlyIf (n = 1) 0
  atan := map fun n => onlyIf (n = 0) 0
  exp := map fun n => onlyIf (n = 0) 1
  log := map fun n => onlyIf (n = 1) 0
  abs := map fun n => value |n|
  pow := map₂ fun m n => onlyIf (0 ≤ n) (m ^ n.toNat)
  atan2 := map₂ fun m n => onlyIf (m = 0 ∧ 0 < n) 0
  hypot := map₂ fun m n => onlyIf ((m * m + n * n).sqrt * (m * m + n * n).sqrt = m * m + n * n)
    (m * m + n * n).sqrt
  lt
    | value m, value n => m < n
    | _, _ => false
  isFinite x := x ≠ undefined
  ofNumeral s := ofDecimal (Decimal.ofNumeral s.toList)
  text := text
  rounded := text

@[simp] theorem isFinite_value (n : ℤ) : Numeric.isFinite (value n) = true := rfl

@[simp] theorem not_isFinite_undefined : Numeric.isFinite undefined = false := rfl

@[simp] theorem beq_value (m n : ℤ) : (value m == value n) = (m == n) := rfl

@[simp] theorem undefined_beq (x : Whole) : (undefined == x) = false := by
  cases x <;> rfl

@[simp] theorem beq_undefined (x : Whole) : (x == undefined) = false := by
  cases x <;> rfl

theorem zero_eq : (0 : Whole) = value 0 := rfl

@[simp] theorem value_add (m n : ℤ) : value m + value n = value (m + n) := rfl

@[simp] theorem value_sub (m n : ℤ) : value m - value n = value (m - n) := rfl

@[simp] theorem value_mul (m n : ℤ) : value m * value n = value (m * n) := rfl

@[simp] theorem neg_value (n : ℤ) : -(value n) = value (-n) := rfl

theorem value_div (m n : ℤ) : value m / value n = onlyIf (n ≠ 0 ∧ n ∣ m) (m / n) := rfl

theorem value_pow (m n : ℤ) : Numeric.pow (value m) (value n) = onlyIf (0 ≤ n) (m ^ n.toNat) := rfl

/-- Equal numbers are the same. -/
theorem eq_of_beq {v w : Whole} (h : v == w) : v = w ∧ Numeric.isFinite w := by
  cases v with
  | undefined => simp at h
  | value m =>
    cases w with
    | undefined => simp at h
    | value n =>
      rw [beq_value, beq_iff_eq] at h
      exact ⟨congrArg value h, rfl⟩

theorem beq_of_eq {v w : Whole} (h : v = w) (hw : Numeric.isFinite w) : v == w := by
  subst h
  cases v with
  | value n => simp
  | undefined => cases hw

theorem exists_value {v : Whole} (h : Numeric.isFinite v) : ∃ n, v = value n := by
  cases v with
  | value n => exact ⟨n, rfl⟩
  | undefined => cases h

section
variable {ds : List Char} (hd : ∀ c ∈ ds, c.isDigit)
include hd

theorem takeWhile_digits (rest : List Char) :
    (ds ++ '.' :: rest).takeWhile Char.isDigit = ds := by
  rw [List.takeWhile_append_of_pos hd]
  simp

theorem dropWhile_digits (rest : List Char) :
    (ds ++ '.' :: rest).dropWhile Char.isDigit = '.' :: rest := by
  rw [List.dropWhile_append_of_pos hd]
  rfl

theorem ofNumeral_digits :
    Decimal.ofNumeral (ds ++ ['.', '0']) = ⟨10 * Decimal.ofDigits ds, -1⟩ := by
  have hfraction : Decimal.fractionPart ['.', '0'] = (['0'], []) := by decide
  have hten : Decimal.ofDigits (ds ++ ['0']) = 10 * Decimal.ofDigits ds := by
    rw [Decimal.ofDigits, Nat.ofDigitChars_append, Nat.ofDigitChars_cons, Nat.ofDigitChars_nil,
      Decimal.ofDigits]
    simp
  simp only [Decimal.ofNumeral, takeWhile_digits hd, dropWhile_digits hd, hfraction, hten]
  rfl

end

theorem isNumeral_digits {ds : List Char} (hd : Digits ds) (hne : ds ≠ []) :
    IsNumeral (String.ofList ds ++ ".0") := by
  obtain ⟨c, cs, rfl⟩ := List.exists_cons_of_ne_nil hne
  have hcs : Digits cs := fun d hm => hd d (by simp [hm])
  have hfraction : Fraction ['.', '0'] := .inr ⟨['0'], rfl, by decide⟩
  have hcontinues : Continues (cs ++ ['.', '0']) :=
    ⟨cs, ['.', '0'], [], by simp, hcs, hfraction, .inl rfl⟩
  have happend : String.ofList (c :: cs) ++ ".0" = String.ofList (c :: (cs ++ ['.', '0'])) := by
    simp [← String.toList_inj]
  rw [happend]
  exact isNumeral_of_isNumber (.inl ⟨c, cs ++ ['.', '0'], rfl, hd c (by simp), hcontinues⟩)

theorem isDigit_toDigits (n : ℕ) : ∀ c ∈ Nat.toDigits 10 n, c.isDigit := fun _ hc =>
  Nat.isDigit_of_mem_toDigits (by decide) (by decide) hc

theorem mem_digits {n : ℤ} {c : Char} (h : c ∈ digits n) : c = '-' ∨ c.isDigit := by
  cases n with
  | ofNat n => exact .inr (isDigit_toDigits n c h)
  | negSucc n =>
    rcases List.mem_cons.mp h with h | h
    · exact .inl h
    · exact .inr (isDigit_toDigits (n + 1) c h)

theorem format_eq (n : ℤ) : Numeric.format (value n) = String.ofList (digits n) ++ ".0" := by
  have hpoint : (digits n).any (fun c => c = '.' || c = 'e' || c = 'E' || c = 'n') = false := by
    rw [List.any_eq_false]
    intro c hc
    rcases mem_digits hc with rfl | hc
    · decide
    · rw [Bool.not_eq_true, Bool.eq_false_iff]
      intro h
      simp only [Bool.or_eq_true, decide_eq_true_eq] at h
      rcases h with ((rfl | rfl) | rfl) | rfl <;> cases hc
  have htext : Numeric.text (value n) = String.ofList (digits n) := rfl
  simp only [Numeric.format, htext, String.toList_ofList, hpoint]
  rfl

theorem ofNumeral_toDigits (n : ℕ) :
    Numeric.ofNumeral (String.ofList (Nat.toDigits 10 n) ++ ".0") = value n := by
  have hlist : (String.ofList (Nat.toDigits 10 n) ++ ".0").toList =
      Nat.toDigits 10 n ++ ['.', '0'] := by
    simp [String.toList_append]
  have hn : Decimal.ofDigits (Nat.toDigits 10 n) = n := Nat.ofDigitChars_ten_toDigits
  change ofDecimal (Decimal.ofNumeral (String.toList _)) = value n
  rw [hlist, ofNumeral_digits (isDigit_toDigits n), hn]
  change onlyIf (10 ^ (0 + 1) ∣ 10 * n) _ = value n
  rw [onlyIf, if_pos (by simp)]
  simp

theorem isNumeral_toDigits (n : ℕ) : IsNumeral (String.ofList (Nat.toDigits 10 n) ++ ".0") :=
  isNumeral_digits (isDigit_toDigits n) Nat.toDigits_ne_nil

theorem format_reads (n : ℤ) :
    (IsNumeral (Numeric.format (value n)) ∧
      Numeric.ofNumeral (Numeric.format (value n)) = value n) ∨
    ∃ s, Numeric.format (value n) = "-" ++ s ∧ IsNumeral s ∧ -(Numeric.ofNumeral s) = value n := by
  rw [format_eq]
  cases n with
  | ofNat n => exact .inl ⟨isNumeral_toDigits n, ofNumeral_toDigits n⟩
  | negSucc n =>
    refine .inr ⟨_, ?_, isNumeral_toDigits (n + 1), ?_⟩
    · rw [← String.toList_inj]
      simp [String.toList_append, digits]
    · rw [ofNumeral_toDigits]
      rfl

section
variable {v z o : Whole}

theorem eq_of_beq_zero (h : z == 0) : z = value 0 := (eq_of_beq h).1

theorem eq_of_beq_one (h : o == 1) : o = value 1 := (eq_of_beq h).1

theorem div_one (v : Whole) : v / value 1 = v := by
  cases v with
  | undefined => rfl
  | value n =>
    rw [value_div, onlyIf, if_pos ⟨one_ne_zero, one_dvd n⟩, Int.ediv_one]

theorem zero_div {n : ℤ} (hn : n ≠ 0) : value 0 / value n = value 0 := by
  rw [value_div, onlyIf, if_pos ⟨hn, dvd_zero n⟩, Int.zero_ediv]

theorem pow_one (v : Whole) : Numeric.pow v (value 1) = v := by
  cases v with
  | undefined => rfl
  | value n =>
    rw [value_pow, onlyIf, if_pos zero_le_one, Int.toNat_one, Int.pow_succ, Int.pow_zero, one_mul]

end

instance : LawfulNumeric Whole where
  beq_self h := beq_of_eq rfl h
  finite_of_beq h _ := (eq_of_beq h).1 ▸ (eq_of_beq h).2
  zero_add {v z} hv hz := by
    obtain ⟨n, rfl⟩ := exists_value hv
    simp [eq_of_beq_zero hz]
  add_zero {v z} hv hz := by
    obtain ⟨n, rfl⟩ := exists_value hv
    simp [eq_of_beq_zero hz]
  sub_zero {v z} hv hz := by
    obtain ⟨n, rfl⟩ := exists_value hv
    simp [eq_of_beq_zero hz]
  zero_sub {v z} hv hz := by
    obtain ⟨n, rfl⟩ := exists_value hv
    simp [eq_of_beq_zero hz]
  zero_mul {v z} hv hz := by
    obtain ⟨n, rfl⟩ := exists_value hv
    simp [eq_of_beq_zero hz, zero_eq]
  mul_zero {v z} hv hz := by
    obtain ⟨n, rfl⟩ := exists_value hv
    simp [eq_of_beq_zero hz, zero_eq]
  one_mul {v o} hv ho := by
    obtain ⟨n, rfl⟩ := exists_value hv
    simp [eq_of_beq_one ho]
  mul_one {v o} hv ho := by
    obtain ⟨n, rfl⟩ := exists_value hv
    simp [eq_of_beq_one ho]
  zero_div {v z} hv hne hz := by
    obtain ⟨n, rfl⟩ := exists_value hv
    rw [zero_eq, beq_value, beq_eq_false_iff_ne] at hne
    rw [eq_of_beq_zero hz, zero_div hne]
    rfl
  div_one {v o} hv ho := by
    rw [eq_of_beq_one ho, div_one]
    exact beq_of_eq rfl hv
  pow_one {v o} hv ho := by
    rw [eq_of_beq_one ho, pow_one]
    exact beq_of_eq rfl hv
  format_reads {v} hv := by
    obtain ⟨n, rfl⟩ := exists_value hv
    exact format_reads n

section
variable {u v w w' : Whole}

theorem congr (f : Whole → Whole) (h : v == w) (hr : Numeric.isFinite (f w)) : f v == f w := by
  obtain ⟨rfl, -⟩ := eq_of_beq h
  exact beq_of_eq rfl hr

theorem congr₂ (f : Whole → Whole → Whole) (h : u == v) (h' : w == w')
    (hr : Numeric.isFinite (f v w')) : f u w == f v w' := by
  obtain ⟨rfl, -⟩ := eq_of_beq h
  exact congr (f u) h' hr

theorem finite_of_map {f : ℤ → Whole} (h : Numeric.isFinite (map f v)) : Numeric.isFinite v := by
  cases v with
  | value n => rfl
  | undefined => cases h

theorem finite_of_map₂ {f : ℤ → ℤ → Whole} (h : Numeric.isFinite (map₂ f v w)) :
    Numeric.isFinite v ∧ Numeric.isFinite w := by
  cases v <;> cases w <;> first
    | exact ⟨rfl, rfl⟩
    | cases h

end

instance : RegularNumeric Whole where
  symm h := by
    obtain ⟨rfl, -⟩ := eq_of_beq h
    exact h
  trans h h' := by
    obtain ⟨rfl, -⟩ := eq_of_beq h
    exact h'
  add_congr := congr₂ (· + ·)
  sub_congr := congr₂ (· - ·)
  mul_congr := congr₂ (· * ·)
  div_congr := congr (· / _)
  neg_congr := congr (-·)
  sin_congr := congr Numeric.sin
  cos_congr := congr Numeric.cos
  sqrt_congr := congr Numeric.sqrt
  finite_add := finite_of_map₂
  finite_sub := finite_of_map₂
  finite_mul := finite_of_map₂
  finite_div h := (finite_of_map₂ h).1
  finite_neg := finite_of_map
  finite_sin := finite_of_map
  finite_cos := finite_of_map
  finite_sqrt := finite_of_map
  divisor h := by
    simp only [List.mem_cons, List.not_mem_nil, or_false] at h
    rcases h with rfl | rfl | rfl | rfl <;> exact ⟨rfl, rfl, rfl⟩

end Whole
end QuantumOps
