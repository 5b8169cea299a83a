import QuantumOps.Proofs.Expression.Munch
import QuantumOps.Proofs.Expression.Spelling

/-! What the arithmetic of scalars relies on: that adding zero and multiplying by zero or one do
what they should, up to the sign of zero, and that the text of a number reads back. Whole numbers
have these properties (`Whole`), and so have doubles where the functions of the machine have the
values that are expected of them (`Double.regularNumeric`). -/
namespace QuantumOps
open Expression (tokenize numbers Spells Variables IsNumber IsLexeme)

/-- The text is one numeral. -/
def IsNumeral (s : String) : Prop :=
  ∃ last, tokenize s = ⟨[⟨.number, s, 1⟩], .endOfText last⟩

theorem isNumeral_of_isNumber {cs : List Char} (h : IsNumber cs) :
    IsNumeral (String.ofList cs) := by
  have hlexeme : IsLexeme .number cs := h
  refine ⟨1 + cs.length, ?_⟩
  rw [tokenize, String.toList_ofList, hlexeme.scan]

/-- Numbers with a zero and a one that are neutral as far as equality of numbers sees, and with
texts that denote them: a numeral, after a minus sign if need be. -/
class LawfulNumeric (R : Type) [Numeric R] : Prop where
  beq_self {v : R} : Numeric.isFinite v → v == v
  finite_of_beq {v w : R} : v == w → Numeric.isFinite w → Numeric.isFinite v
  zero_add {v z : R} : Numeric.isFinite v → z == 0 → v == z + v
  add_zero {v z : R} : Numeric.isFinite v → z == 0 → v == v + z
  sub_zero {v z : R} : Numeric.isFinite v → z == 0 → v == v - z
  zero_sub {v z : R} : Numeric.isFinite v → z == 0 → -v == z - v
  zero_mul {v z : R} : Numeric.isFinite v → z == 0 → 0 == z * v
  mul_zero {v z : R} : Numeric.isFinite v → z == 0 → 0 == v * z
  one_mul {v o : R} : Numeric.isFinite v → o == 1 → v == o * v
  mul_one {v o : R} : Numeric.isFinite v → o == 1 → v == v * o
  zero_div {v z : R} : Numeric.isFinite v → (v == 0) = false → z == 0 → 0 == z / v
  div_one {v o : R} : Numeric.isFinite v → o == 1 → v == v / o
  pow_one {v o : R} : Numeric.isFinite v → o == 1 → v == Numeric.pow v o
  format_reads {v : R} : Numeric.isFinite v →
    (IsNumeral (Numeric.format v) ∧ Numeric.ofNumeral (Numeric.format v) = v) ∨
    ∃ s, Numeric.format v = "-" ++ s ∧ IsNumeral s ∧ -(Numeric.ofNumeral s) = v

/-- Numbers whose arithmetic respects their equality and ends in a finite number from finite ones
only. -/
class RegularNumeric (R : Type) [Numeric R] : Prop extends LawfulNumeric R, PartialEquivBEq R where
  add_congr {v v' w w' : R} : v == v' → w == w' → Numeric.isFinite (v' + w') → v + w == v' + w'
  sub_congr {v v' w w' : R} : v == v' → w == w' → Numeric.isFinite (v' - w') → v - w == v' - w'
  mul_congr {v v' w w' : R} : v == v' → w == w' → Numeric.isFinite (v' * w') → v * w == v' * w'
  div_congr {v v' w : R} : v == v' → Numeric.isFinite (v' / w) → v / w == v' / w
  neg_congr {v v' : R} : v == v' → Numeric.isFinite (-v') → -v == -v'
  sin_congr {v v' : R} : v == v' → Numeric.isFinite (Numeric.sin v') →
    Numeric.sin v == Numeric.sin v'
  cos_congr {v v' : R} : v == v' → Numeric.isFinite (Numeric.cos v') →
    Numeric.cos v == Numeric.cos v'
  sqrt_congr {v v' : R} : v == v' → Numeric.isFinite (Numeric.sqrt v') →
    Numeric.sqrt v == Numeric.sqrt v'
  finite_add {v w : R} : Numeric.isFinite (v + w) → Numeric.isFinite v ∧ Numeric.isFinite w
  finite_sub {v w : R} : Numeric.isFinite (v - w) → Numeric.isFinite v ∧ Numeric.isFinite w
  finite_mul {v w : R} : Numeric.isFinite (v * w) → Numeric.isFinite v ∧ Numeric.isFinite w
  finite_div {v w : R} : Numeric.isFinite (v / w) → Numeric.isFinite v
  finite_neg {v : R} : Numeric.isFinite (-v) → Numeric.isFinite v
  finite_sin {v : R} : Numeric.isFinite (Numeric.sin v) → Numeric.isFinite v
  finite_cos {v : R} : Numeric.isFinite (Numeric.cos v) → Numeric.isFinite v
  finite_sqrt {v : R} : Numeric.isFinite (Numeric.sqrt v) → Numeric.isFinite v
  divisor {c : R} : c ∈ [2, -2, 4, -4] →
    Numeric.isFinite c ∧ (c == 0) = false ∧ (c == 1) = false

section
variable {R : Type} [Numeric R]

theorem IsNumeral.spells {s : String} (h : IsNumeral s) : Spells .primary s (.number s) := by
  obtain ⟨last, hs⟩ := h
  refine .of_tokenize (congrArg Expression.Tokens.ending hs) ?_
  rw [hs]
  exact .number rfl

/-- The text of a number is a unary with the number as its value. -/
theorem format_spells [LawfulNumeric R] {v : R} (h : Numeric.isFinite v) :
    ∃ t, Spells .unary (Numeric.format v) t ∧
      ∀ vars : Variables R, t.value (numbers vars) = some v := by
  rcases LawfulNumeric.format_reads h with ⟨hs, hv⟩ | ⟨s, hf, hs, hv⟩
  · refine ⟨_, hs.spells.mono (by decide), fun vars => ?_⟩
    rw [Expression.Tree.value]
    exact congrArg some hv
  · refine ⟨_, hf ▸ (hs.spells.mono (by decide)).minus, fun vars => ?_⟩
    rw [Expression.Tree.value, Expression.Tree.value]
    exact congrArg some hv

end
end QuantumOps
