import QuantumOps.Proofs.Decimal.Reading
import QuantumOps.Proofs.Expression.Lexemes
import QuantumOps.Decimal.Notation
import QuantumOps.Decimal.Numeral

/-! How decimals are written. The text of a decimal is a numeral that starts with a digit, and it
is read as a decimal of the same value. -/
namespace QuantumOps.Decimal

open Expression (Digits Fraction Exponent IsExponentLetter IsWhole)

/-- A numeral taken apart: digits, a fraction and an exponent part, of which the last two may be
missing. -/
structure Numeral where
  whole : List Char
  fraction : List Char
  exponent : List Char
  whole_ne_nil : whole ≠ []
  digits : Digits whole
  isFraction : Fraction fraction
  isExponent : exponent = [] ∨ Exponent exponent

/-! Reading digits. -/

theorem ofDigits_append (ds es : List Char) :
    ofDigits (ds ++ es) = 10 ^ es.length * ofDigits ds + ofDigits es := by
  rw [ofDigits, Nat.ofDigitChars_append, Nat.ofDigitChars_eq_ofDigitChars_zero]
  rfl

theorem ofDigits_zeros (n : Nat) : ofDigits (List.replicate n '0') = 0 := by
  rw [ofDigits, Nat.ofDigitChars_replicate_zero, Nat.mul_zero]

@[simp] theorem ofDigits_toDigits (n : Nat) : ofDigits (Nat.toDigits 10 n) = n :=
  Nat.ofDigitChars_ten_toDigits

theorem digits_toDigits (n : Nat) : Digits (Nat.toDigits 10 n) :=
  fun _ hc => Nat.isDigit_of_mem_toDigits (by decide) (by decide) hc

section
variable {ds rest : List Char}

theorem takeWhile_digits (hd : Digits ds) (hr : ∀ c ∈ rest.head?, c.isDigit = false) :
    (ds ++ rest).takeWhile Char.isDigit = ds := by
  rw [List.takeWhile_append_of_pos hd]
  cases rest with
  | nil => simp
  | cons c rest => simp [hr c rfl]

theorem dropWhile_digits (hd : Digits ds) (hr : ∀ c ∈ rest.head?, c.isDigit = false) :
    (ds ++ rest).dropWhile Char.isDigit = rest := by
  rw [List.dropWhile_append_of_pos hd]
  cases rest with
  | nil => simp
  | cons c rest => simp [hr c rfl]

end

namespace Numeral

variable (n : Numeral)

def chars : List Char := n.whole ++ (n.fraction ++ n.exponent)

/-- What the parts stand for. -/
def decimal : Decimal :=
  ⟨ofDigits (n.whole ++ n.fraction.tail), exponentPart n.exponent - n.fraction.tail.length⟩

theorem exponent_head : ∀ c ∈ n.exponent.head?, c = 'e' ∨ c = 'E' := by
  intro c hc
  rcases n.isExponent with h | ⟨e, sign, ds, h, he, -⟩
  · simp [h] at hc
  · rw [h] at hc
    cases hc
    exact he

theorem exponent_not_isDigit : ∀ c ∈ n.exponent.head?, c.isDigit = false := by
  intro c hc
  rcases n.exponent_head c hc with rfl | rfl <;> rfl

theorem fractionPart_eq :
    fractionPart (n.fraction ++ n.exponent) = (n.fraction.tail, n.exponent) := by
  rcases n.isFraction with h | ⟨ds, h, hd⟩
  · rw [h]
    cases hex : n.exponent with
    | nil => rfl
    | cons c rest =>
      rcases n.exponent_head c (by rw [hex]; rfl) with rfl | rfl <;> rfl
  · rw [h, List.cons_append, fractionPart, takeWhile_digits hd n.exponent_not_isDigit,
      dropWhile_digits hd n.exponent_not_isDigit]
    rfl

/-- A numeral is read as what its parts stand for. -/
theorem ofNumeral_chars : ofNumeral n.chars = n.decimal := by
  have hrest : ∀ c ∈ (n.fraction ++ n.exponent).head?, c.isDigit = false := by
    rcases n.isFraction with h | ⟨ds, h, -⟩
    · rw [h]
      exact n.exponent_not_isDigit
    · rw [h]
      rintro c ⟨⟩
      rfl
  rw [ofNumeral, chars, takeWhile_digits n.digits hrest, dropWhile_digits n.digits hrest,
    n.fractionPart_eq]
  rfl

theorem isWhole_chars : IsWhole n.chars := by
  obtain ⟨c, ds, h⟩ := List.exists_cons_of_ne_nil n.whole_ne_nil
  have hd := n.digits
  rw [h] at hd
  obtain ⟨hc, hds⟩ := List.forall_mem_cons.mp hd
  refine ⟨c, ds ++ (n.fraction ++ n.exponent), ?_, hc, ds, n.fraction, n.exponent, rfl, hds,
    n.isFraction, n.isExponent⟩
  rw [chars, h]
  rfl

end Numeral

/-! The exponent part. -/

theorem exponentChars_eq (x : Int) : ∃ ds,
    exponentChars x = 'e' :: (if x < 0 then '-' else '+') :: ds ∧ Digits ds ∧ ds ≠ [] ∧
      ofDigits ds = x.natAbs := by
  have hdigits := digits_toDigits x.natAbs
  have hvalue := ofDigits_toDigits x.natAbs
  have hne : Nat.toDigits 10 x.natAbs ≠ [] := Nat.toDigits_ne_nil
  rw [exponentChars]
  generalize Nat.toDigits 10 x.natAbs = ds at hdigits hvalue hne
  refine ⟨_, rfl, ?_⟩
  split
  · refine ⟨List.forall_mem_cons.mpr ⟨rfl, hdigits⟩, List.cons_ne_nil _ _, ?_⟩
    exact (ofDigits_append ['0'] ds).trans ((Nat.zero_add _).trans hvalue)
  · exact ⟨hdigits, hne, hvalue⟩

theorem exponent_exponentChars (x : Int) : Exponent (exponentChars x) := by
  obtain ⟨ds, hx, hd, hne, -⟩ := exponentChars_eq x
  refine ⟨'e', [if x < 0 then '-' else '+'], ds, hx, .inl rfl, ?_, hd, hne⟩
  split
  · exact .inr (.inr rfl)
  · exact .inr (.inl rfl)

theorem exponentPart_exponentChars (x : Int) : exponentPart (exponentChars x) = x := by
  obtain ⟨ds, hx, hd, -, hvalue⟩ := exponentChars_eq x
  rw [hx]
  split
  · rename_i h
    rw [exponentPart, if_pos (.inl rfl)]
    simp only [List.takeWhile_eq_self_iff.mpr hd, hvalue]
    omega
  · rename_i h
    rw [exponentPart, if_pos (.inl rfl)]
    simp only [List.takeWhile_eq_self_iff.mpr hd, hvalue]
    omega

/-! The shapes of a decimal that is written. -/

section
variable {ds : List Char}

theorem digits_zeros (k : Nat) : Digits (List.replicate k '0') := by
  intro c hc
  rw [List.eq_of_mem_replicate hc]
  rfl

/-- The numeral of digits in positional notation. -/
theorem exists_positional (hd : Digits ds) (hne : ds ≠ []) (e : Int) :
    ∃ n : Numeral, n.chars = positional ds (e + ds.length - 1) ∧
      n.decimal.value = (⟨ofDigits ds, e⟩ : Decimal).value := by
  have hpos : 0 < ds.length := List.length_pos_of_ne_nil hne
  rw [positional]
  split
  · -- a point and zeros before the digits
    rename_i hneg
    generalize hk : (-(e + ds.length - 1)).toNat - 1 = k
    refine ⟨⟨['0'], '.' :: (List.replicate k '0' ++ ds), [], by simp, by simp [Digits],
      .inr ⟨_, rfl, List.forall_mem_append.mpr ⟨digits_zeros k, hd⟩⟩, .inl rfl⟩, by
        simp [Numeral.chars], ?_⟩
    refine congrArg value (congrArg₂ Decimal.mk ?_ ?_)
    · rw [List.tail_cons, ← List.append_assoc, ofDigits_append]
      have hzero : ofDigits (['0'] ++ List.replicate k '0') = 0 := ofDigits_zeros (k + 1)
      rw [hzero, Nat.mul_zero, Nat.zero_add]
    · simp [exponentPart]
      omega
  · rename_i hneg
    generalize hw : (e + ds.length - 1).toNat + 1 = whole
    dsimp only
    split
    · -- zeros after the digits
      rename_i hlen
      refine ⟨⟨ds ++ List.replicate (whole - ds.length) '0', [], [], by simp [hne],
        List.forall_mem_append.mpr ⟨hd, digits_zeros _⟩, .inl rfl, .inl rfl⟩, by
          simp [Numeral.chars], ?_⟩
      have he : e = (whole - ds.length : Nat) := by omega
      simp [value, Numeral.decimal, exponentPart, ofDigits_append, ofDigits_zeros, he, mul_comm]
    · -- a point among the digits
      rename_i hlen
      refine ⟨⟨ds.take whole, '.' :: ds.drop whole, [], ?_,
        fun c hc => hd c (List.mem_of_mem_take hc),
        .inr ⟨_, rfl, fun c hc => hd c (List.mem_of_mem_drop hc)⟩, .inl rfl⟩, by
          simp [Numeral.chars], ?_⟩
      · rw [← List.length_pos_iff, List.length_take]
        omega
      · refine congrArg value (congrArg₂ Decimal.mk ?_ ?_)
        · rw [List.tail_cons, List.take_append_drop]
        · simp [exponentPart]
          omega

/-- The numeral of digits with an exponent. -/
theorem exists_scientific (hd : Digits ds) (hne : ds ≠ []) (e : Int) :
    ∃ n : Numeral, n.chars = pointed ds ++ exponentChars (e + ds.length - 1) ∧
      n.decimal.value = (⟨ofDigits ds, e⟩ : Decimal).value := by
  have hexponent := exponent_exponentChars (e + ds.length - 1)
  match ds, hne with
  | [d], _ =>
    refine ⟨⟨[d], [], _, by simp, hd, .inl rfl, .inr hexponent⟩, rfl, ?_⟩
    simp [Numeral.decimal, exponentPart_exponentChars]
  | d :: d' :: rest, _ =>
    obtain ⟨hfirst, hrest⟩ := List.forall_mem_cons.mp hd
    refine ⟨⟨[d], '.' :: d' :: rest, _, by simp, by simpa [Digits] using hfirst,
      .inr ⟨_, rfl, hrest⟩, .inr hexponent⟩, rfl, ?_⟩
    refine congrArg value (congrArg₂ Decimal.mk rfl ?_)
    rw [exponentPart_exponentChars, List.tail_cons]
    simp
    omega

/-- The text of a decimal is a numeral of the same value. -/
theorem exists_numeral (d : Decimal) :
    ∃ n : Numeral, n.chars = d.chars ∧ n.decimal.value = d.value := by
  have hd := digits_toDigits d.significand
  have hne : Nat.toDigits 10 d.significand ≠ [] := Nat.toDigits_ne_nil
  have hvalue : (⟨ofDigits (Nat.toDigits 10 d.significand), d.exponent⟩ : Decimal) = d := by
    rw [ofDigits_toDigits]
  rw [chars, ← congrArg value hvalue]
  split
  · exact exists_positional hd hne d.exponent
  · exact exists_scientific hd hne d.exponent

end

/-! A point is added where a numeral has neither a point nor an exponent. -/

/-- Whether a text shows that it is no whole number: by a point, an exponent or as no number. -/
def isMarked (cs : List Char) : Bool := cs.any fun c => c = '.' || c = 'e' || c = 'E' || c = 'n'

/-- The text with a point, if it has no mark. -/
def withPoint (cs : List Char) : List Char := if isMarked cs then cs else cs ++ ['.', '0']

theorem isMarked_signed (negative : Bool) (cs : List Char) :
    isMarked (signed negative cs) = isMarked cs := by
  cases negative <;> rfl

theorem withPoint_signed (negative : Bool) (cs : List Char) :
    withPoint (signed negative cs) = signed negative (withPoint cs) := by
  rw [withPoint, withPoint, isMarked_signed]
  split
  · rfl
  · cases negative <;> rfl

namespace Numeral

variable {n : Numeral}

theorem isMarked_chars : isMarked n.chars = true ↔ n.fraction ≠ [] ∨ n.exponent ≠ [] := by
  have hwhole : isMarked n.whole = false := by
    refine List.any_eq_false.mpr fun c hc hmark => ?_
    have hdigit := n.digits c hc
    simp only [Bool.or_eq_true, decide_eq_true_eq] at hmark
    rcases hmark with ((rfl | rfl) | rfl) | rfl <;> exact absurd hdigit (by decide)
  have hfraction : isMarked n.fraction = true ↔ n.fraction ≠ [] := by
    rcases n.isFraction with h | ⟨ds, h, -⟩ <;> simp [h, isMarked]
  have hexponent : isMarked n.exponent = true ↔ n.exponent ≠ [] := by
    rcases n.isExponent with h | ⟨c, sign, ds, h, rfl | rfl, -⟩ <;> simp [h, isMarked]
  rw [← hfraction, ← hexponent, ← Bool.or_eq_true, chars]
  simp only [isMarked, List.any_append] at hwhole ⊢
  rw [hwhole, Bool.false_or]

/-- A numeral with a mark has a point or ends in an exponent part. -/
theorem point_or_exponent (n : Numeral) (h : n.fraction ≠ [] ∨ n.exponent ≠ []) :
    '.' ∈ n.chars ∨ ∃ mantissa exponent, n.chars = mantissa ++ exponent ∧ Exponent exponent := by
  rcases h with h | h
  · obtain ⟨ds, hds, -⟩ := n.isFraction.resolve_left h
    exact .inl (by simp [chars, hds])
  · exact .inr ⟨n.whole ++ n.fraction, n.exponent, (List.append_assoc ..).symm,
      n.isExponent.resolve_left h⟩

/-- A numeral without a mark stands for the same number with a point. -/
theorem exists_withPoint (n : Numeral) : ∃ n' : Numeral, n'.chars = withPoint n.chars ∧
    n'.decimal.value = n.decimal.value ∧ isMarked n'.chars = true := by
  rw [withPoint]
  split
  · rename_i h
    exact ⟨n, rfl, rfl, h⟩
  · rename_i h
    obtain ⟨hfraction, hexponent⟩ : n.fraction = [] ∧ n.exponent = [] := by
      simpa [isMarked_chars] using h
    refine ⟨⟨n.whole, ['.', '0'], [], n.whole_ne_nil, n.digits, .inr ⟨_, rfl, by simp [Digits]⟩,
      .inl rfl⟩, by simp [chars, hfraction, hexponent], ?_,
      isMarked_chars.mpr (.inl (List.cons_ne_nil _ _))⟩
    have hzero : ofDigits ['0'] = 0 := rfl
    simp [decimal, value, hfraction, hexponent, ofDigits_append, exponentPart, hzero]
    field_simp

end Numeral

end QuantumOps.Decimal
