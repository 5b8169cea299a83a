import QuantumOps.Proofs.Numeric.Bits
import QuantumOps.Proofs.Decimal.Writing
import QuantumOps.Proofs.Expression.Respacing
import QuantumOps.Proofs.Expression.Spelling
import QuantumOps.Scalar

/-! The text of a double as an expression. A number is written as one numeral, after a minus sign
if its sign bit is set, and evaluates to itself, bit for bit. What is no number is written as a
name. -/
namespace QuantumOps

open Decimal (Numeral signed isMarked withPoint)

namespace Expression

section
variable {cs : List Char} {negative : Bool}

/-- The token of the sign. -/
def signTokens (negative : Bool) : List Token := if negative then [⟨.minus, "-", 1⟩] else []

theorem tokenize_signed (h : IsNumber cs) (negative : Bool) : ∃ column last,
    tokenize (String.ofList (signed negative cs)) =
      ⟨signTokens negative ++ [⟨.number, String.ofList cs, column⟩], .endOfText last⟩ := by
  have hlexeme : IsLexeme .number cs := h
  cases negative with
  | false =>
    refine ⟨1, 1 + cs.length, ?_⟩
    rw [tokenize, String.toList_ofList, signed, if_neg Bool.false_ne_true, hlexeme.scan]
    rfl
  | true =>
    refine ⟨2, 2 + cs.length, ?_⟩
    rw [tokenize, String.toList_ofList, signed, if_pos rfl,
      scan_symbol (by decide) rfl, hlexeme.scan]
    rfl

theorem evaluate_signed {R : Type} [Numeric R] (h : IsNumber cs) (negative : Bool)
    (vars : Variables R) : evaluate vars (String.ofList (signed negative cs)) =
      .ok (if negative then -Numeric.ofNumeral (String.ofList cs)
        else Numeric.ofNumeral (String.ofList cs)) := by
  obtain ⟨column, last, htokens⟩ := tokenize_signed h negative
  have hnumber : Derives .unary [⟨.number, String.ofList cs, column⟩]
      (.number (String.ofList cs)) := .mono (by decide) (.number rfl)
  rw [evaluate, Tokens.read_eq_ok_iff, htokens]
  refine ⟨⟨last, rfl⟩, ?_⟩
  cases negative with
  | false => exact ⟨_, hnumber.mono (by decide), rfl⟩
  | true => exact ⟨_, .mono (by decide) (.neg rfl hnumber), rfl⟩

/-! No part of a name is a number, with signs before it or without. -/

theorem IsIdentifier.not_number (h : IsIdentifier cs) (column : Nat) :
    ∀ t ∈ (scan column cs).tokens, t.kind ≠ .number := by
  have hlexeme : IsLexeme .identifier cs := h
  simp [hlexeme.scan]

theorem minus_not_number (h : ∀ column, ∀ t ∈ (scan column cs).tokens, t.kind ≠ .number)
    (column : Nat) : ∀ t ∈ (scan column ('-' :: cs)).tokens, t.kind ≠ .number := by
  rw [scan_symbol (by decide) rfl]
  exact List.forall_mem_cons.mpr ⟨nofun, h (column + 1)⟩

theorem signed_not_number (h : IsIdentifier cs) (column : Nat) :
    ∀ t ∈ (scan column (signed negative cs)).tokens, t.kind ≠ .number := by
  cases negative with
  | false => exact h.not_number column
  | true => exact minus_not_number h.not_number column

end

end Expression

open Expression (Variables tokenize evaluate evaluateFinite IsNumber IsIdentifier Exponent)

/-! The text of a double. -/

section
variable {x : Float}

theorem format_eq (x : Float) :
    Numeric.format x = String.ofList (withPoint (Decimal.Double.ofFloat x).chars) := by
  have htext : Numeric.text x = String.ofList (Decimal.Double.ofFloat x).chars := rfl
  rw [Numeric.format, withPoint, isMarked, htext, String.toList_ofList]
  split
  · rfl
  · rw [String.ofList_append]

/-- The text of a number, and what the numeral in it is read as. -/
theorem format_of_isFinite (h : x.isFinite = true) : ∃ n : Numeral,
    Numeric.format x = String.ofList (signed (Double.signBit x) n.chars) ∧
    (n.fraction ≠ [] ∨ n.exponent ≠ []) ∧
    (if Double.signBit x then -Numeric.ofNumeral (String.ofList n.chars)
      else Numeric.ofNumeral (String.ofList n.chars)) = x := by
  obtain ⟨m, e, hcanonical, hx, hvalue⟩ := Double.ofFloat_of_isFinite h
  obtain ⟨n₀, hchars₀, hvalue₀⟩ := Decimal.exists_numeral (Decimal.shortest m e)
  obtain ⟨n, hchars, hvalue', hmarked⟩ := n₀.exists_withPoint
  refine ⟨n, ?_, Numeral.isMarked_chars.mp hmarked, ?_⟩
  · rw [format_eq, hx, Decimal.Double.chars, Decimal.withPoint_signed, ← hchars₀, hchars]
  · have hread : Numeric.ofNumeral (String.ofList n.chars) =
        (Decimal.Double.finite false m e).toFloat := by
      have hdouble : (Decimal.ofNumeral n.chars).toDouble false = .finite false m e := by
        rw [n.ofNumeral_chars, Decimal.toDouble_congr (hvalue'.trans hvalue₀),
          Decimal.toDouble_shortest hcanonical]
      have hnumeral : Numeric.ofNumeral (String.ofList n.chars) =
          ((Decimal.ofNumeral (String.ofList n.chars).toList).toDouble false).toFloat := rfl
      rw [hnumeral, String.toList_ofList, hdouble]
    rw [hread]
    cases hsign : Double.signBit x with
    | false =>
      rw [hsign] at hvalue
      exact hvalue
    | true =>
      rw [hsign, ← Double.neg_toFloat hcanonical] at hvalue
      exact hvalue

/-- The text of what is no number: a name, perhaps after a minus sign. -/
theorem format_of_not_isFinite (h : x.isFinite = false) : ∃ negative name, IsIdentifier name ∧
    Numeric.format x = String.ofList (signed negative name) := by
  rw [format_eq]
  rcases Double.ofFloat_of_not_isFinite h with hx | ⟨negative, hx⟩
  · rw [hx]
    exact ⟨false, ['n', 'a', 'n'], ⟨'n', ['a', 'n'], rfl, rfl, List.all_eq_true.mp rfl⟩, rfl⟩
  · rw [hx]
    refine ⟨negative, ['i', 'n', 'f'], ⟨'i', ['n', 'f'], rfl, rfl, List.all_eq_true.mp rfl⟩, ?_⟩
    exact congrArg String.ofList (Decimal.withPoint_signed negative ['i', 'n', 'f'])

/-- Every finite double is written as one number with a point or an exponent, after a minus sign
just when its sign bit is set, and the text has that double as its value, whatever names stand for.
Nothing in the text of an infinity or of what is no number is a number, also after a sign. -/
theorem format_reads_back (x : Float) :
    (x.isFinite = true → ∃ number column, number.kind = .number ∧
      tokenize (Numeric.format x) = ⟨(if 2 ^ 63 ≤ x.toBits.toNat then [⟨.minus, "-", 1⟩] else []) ++
        [number], .endOfText column⟩ ∧
      ('.' ∈ number.lexeme.toList ∨
        ∃ mantissa exponent, number.lexeme.toList = mantissa ++ exponent ∧ Exponent exponent) ∧
      ∀ vars : Variables Float, evaluate vars (Numeric.format x) = .ok x ∧
        evaluateFinite vars (Scalar.number x).expression = .ok x) ∧
    (x.isFinite = false → ∀ t ∈ (tokenize (Numeric.format x)).tokens ++
      (tokenize ("-" ++ Numeric.format x)).tokens, t.kind ≠ .number) := by
  refine ⟨fun h => ?_, fun h => ?_⟩
  · obtain ⟨n, hformat, hmarked, hvalue⟩ := format_of_isFinite h
    have hnumber : IsNumber n.chars := .inl n.isWhole_chars
    obtain ⟨column, last, htokens⟩ := Expression.tokenize_signed hnumber (Double.signBit x)
    have hevaluate : ∀ vars : Variables Float, evaluate vars (Numeric.format x) = .ok x := by
      intro vars
      rw [hformat, Expression.evaluate_signed hnumber, hvalue]
    refine ⟨⟨.number, String.ofList n.chars, column⟩, last, rfl, ?_, ?_, fun vars =>
      ⟨hevaluate vars, ?_⟩⟩
    · rw [hformat, htokens, Expression.signTokens, Double.signBit]
      by_cases hbit : 2 ^ 63 ≤ x.toBits.toNat
      · rw [if_pos hbit, if_pos (decide_eq_true hbit)]
      · rw [if_neg hbit, if_neg (mt of_decide_eq_true hbit)]
    · rw [String.toList_ofList]
      exact n.point_or_exponent hmarked
    · have hfinite : Numeric.isFinite x = true := h
      rw [Scalar.expression, evaluateFinite, hevaluate vars]
      simp [bind, Except.bind, hfinite, pure, Except.pure]
  · obtain ⟨negative, name, hname, hformat⟩ := format_of_not_isFinite h
    refine List.forall_mem_append.mpr ⟨?_, ?_⟩
    · rw [hformat, tokenize, String.toList_ofList]
      exact Expression.signed_not_number hname 1
    · rw [hformat, tokenize, String.toList_append, String.toList_ofList, String.toList_ofList]
      exact Expression.minus_not_number (Expression.signed_not_number hname) 1

/-- The negative zero keeps its sign, and an infinity is no number. -/
theorem format_reads_back_negative_zero :
    ((-0 : Float).isFinite = true ∧ Numeric.format (-0 : Float) = "-0.0" ∧
      2 ^ 63 ≤ (-0 : Float).toBits.toNat ∧
      ∀ vars : Variables Float, evaluate vars "-0.0" = .ok (-0)) ∧
    ((1 / 0 : Float).isFinite = false ∧ Numeric.format (1 / 0 : Float) = "inf" ∧
      ∀ t ∈ (tokenize "inf").tokens ++ (tokenize "-inf").tokens, t.kind ≠ .number) := by
  have hzero : Numeric.format (-0 : Float) = "-0.0" := rfl
  have hinfinity : Numeric.format (1 / 0 : Float) = "inf" := rfl
  obtain ⟨_, _, -, -, -, hvalue⟩ := (format_reads_back (-0)).1 rfl
  have hname := (format_reads_back (1 / 0)).2 rfl
  rw [hzero] at hvalue
  rw [hinfinity] at hname
  exact ⟨⟨rfl, hzero, by decide, fun vars => (hvalue vars).1⟩, rfl, hinfinity, hname⟩

end

end QuantumOps
