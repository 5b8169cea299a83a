import QuantumOps.Operation.Substitute
import QuantumOps.Proofs.Agreement
import QuantumOps.Proofs.Scalar.Arithmetic

/-! Scalars derived from symbols and then evaluated, against scalars derived from the values. The
two agree where a symbol is one phrase of the kind that its place asks for. In parentheses it is one
of any kind. -/
namespace QuantumOps
open Expression (Phrase Tree Variables numbers exists_spells IsName isName_of_munch)

namespace Scalar

variable {R : Type} [Numeric R]

/-- The scalar with parentheses around it if it is symbolic. -/
def grouped : Scalar R → Scalar R
  | number x => number x
  | symbol e => symbol ("(" ++ e ++ ")")

variable {vars : Variables R} {p q r : Phrase} {x y x' y' : Scalar R} {a b c : R}

theorem substitute_eq_ok :
    x.substitute vars = .ok x' ↔ ∃ a, x.evaluate vars = .ok a ∧ x' = number a := by
  rw [substitute, bind_eq_ok]
  constructor
  · rintro ⟨a, ha, ⟨⟩⟩
    exact ⟨a, ha, rfl⟩
  · rintro ⟨a, ha, rfl⟩
    exact ⟨a, ha, rfl⟩

theorem isFinite_of_evaluate (hx : x.IsFinite) (h : x.evaluate vars = .ok a) :
    Numeric.isFinite a := by
  cases x with
  | number v =>
    cases h
    exact hx
  | symbol e => exact (evaluateFinite_eq_ok_iff.mp h).2

/-- A text with a value is at least a sum. -/
theorem fits_sum (hx : x.IsFinite) (h : x.substitute vars = .ok x') : x.Fits .sum := by
  obtain ⟨a, ha, -⟩ := substitute_eq_ok.mp h
  cases x with
  | number v => exact hx
  | symbol e =>
    obtain ⟨t, ht, -⟩ := exists_spells (evaluateFinite_eq_ok_iff.mp ha).1
    exact ⟨t, ht⟩

theorem grouped_fits (hx : x.Fits .sum) : x.grouped.Fits .primary := by
  cases x with
  | number v => exact hx
  | symbol e =>
    obtain ⟨t, ht⟩ := hx
    exact ⟨_, ht.group⟩

theorem Fits.isFinite (hx : x.Fits p) : x.IsFinite := by
  cases x with
  | number v => exact hx
  | symbol e => trivial

theorem grouped_has (hx : x.Has vars .sum a) : x.grouped.Has vars .primary a := by
  cases x with
  | number v => exact hx
  | symbol e =>
    obtain ⟨t, ht, hv⟩ := hx
    refine ⟨_, ht.group, ?_⟩
    rw [Tree.value, hv]
    rfl

/-- Parentheses do not change the value. -/
theorem grouped_substitute (hx : x.IsFinite) (h : x.substitute vars = .ok x') :
    x.grouped.substitute vars = .ok x' := by
  obtain ⟨a, ha, rfl⟩ := substitute_eq_ok.mp h
  have hgrouped := grouped_has ((fits_sum hx h).has ha)
  exact substitute_eq_ok.mpr ⟨a, hgrouped.evaluate (isFinite_of_evaluate hx ha), rfl⟩

/-- The second scalar is a number. If it is finite, the first has an equal value and is one phrase
of the kind. -/
def Follows (vars : Variables R) (p : Phrase) (x x' : Scalar R) : Prop :=
  ∃ a, x' = number a ∧ (Numeric.isFinite a → ∃ w, x.Has vars p w ∧ w == a)

theorem Follows.mono (h : p ≤ q) (hx : Follows vars p x x') : Follows vars q x x' := by
  obtain ⟨a, rfl, hx⟩ := hx
  refine ⟨a, rfl, fun ha => ?_⟩
  obtain ⟨w, hw, hwa⟩ := hx ha
  exact ⟨w, hw.mono h, hwa⟩

section
variable [LawfulNumeric R]

theorem Has.follows (hx : x.Has vars p a) : Follows vars p x (number a) :=
  ⟨a, rfl, fun ha => ⟨a, hx, LawfulNumeric.beq_self ha⟩⟩

theorem Fits.follows (hx : x.Fits p) (h : x.substitute vars = .ok x') : Follows vars p x x' := by
  obtain ⟨a, ha, rfl⟩ := substitute_eq_ok.mp h
  exact (hx.has ha).follows

theorem Follows.number : Follows vars p (number a) (number a) :=
  ⟨a, rfl, fun ha => ⟨a, Has.of_number ha⟩⟩

/-- What follows evaluates to what it follows. -/
theorem Follows.agrees (hx : Follows vars p x x') (hr : x'.IsFinite) :
    Agrees (x.substitute vars) x' := by
  obtain ⟨a, rfl, hx⟩ := hx
  obtain ⟨w, hw, hwa⟩ := hx hr
  have hv := hw.evaluate (LawfulNumeric.finite_of_beq hwa hr)
  exact ⟨.number w, by rw [substitute, hv]; rfl, hwa⟩

theorem Has.atan2_follows (hx : x.Has vars .unary a) (hy : y.Has vars .unary b) :
    Follows vars p (Scalar.atan2 x y) (Scalar.atan2 (number a) (number b)) :=
  ⟨_, rfl, fun ha => ⟨_, (hx.atan2 hy ha).mono p.primary_le,
    LawfulNumeric.beq_self ha⟩⟩

end

variable [RegularNumeric R]

/-- An operation on what follows numbers follows the operation on the numbers, if it has the right
value on phrases with values and respects equality. -/
theorem Follows.binary {op : Scalar R → Scalar R → Scalar R} {f : R → R → R}
    (hop : ∀ a b, op (.number a) (.number b) = .number (f a b))
    (hfinite : ∀ {a b}, Numeric.isFinite (f a b) → Numeric.isFinite a ∧ Numeric.isFinite b)
    (hcongr : ∀ {a a' b b'}, a == a' → b == b' → Numeric.isFinite (f a' b') → f a b == f a' b')
    (hhas : ∀ {a b}, x.Has vars p a → y.Has vars q b → Numeric.isFinite a → Numeric.isFinite b →
      Numeric.isFinite (f a b) → ∃ w, (op x y).Has vars r w ∧ w == f a b)
    (hx : Follows vars p x x') (hy : Follows vars q y y') :
    Follows vars r (op x y) (op x' y') := by
  obtain ⟨a, rfl, hx⟩ := hx
  obtain ⟨b, rfl, hy⟩ := hy
  refine ⟨f a b, hop a b, fun hr => ?_⟩
  obtain ⟨ha, hb⟩ := hfinite hr
  obtain ⟨v, hv, hva⟩ := hx ha
  obtain ⟨w, hw, hwb⟩ := hy hb
  have hvw := hcongr hva hwb hr
  obtain ⟨u, hu, huvw⟩ := hhas hv hw (LawfulNumeric.finite_of_beq hva ha)
    (LawfulNumeric.finite_of_beq hwb hb) (LawfulNumeric.finite_of_beq hvw hr)
  exact ⟨u, hu, BEq.trans huvw hvw⟩

theorem Follows.add (hx : Follows vars p x x') (hy : Follows vars q y y')
    (hp : .unary ≤ p := by decide) (hq : .unary ≤ q := by decide) (hq' : q ≤ .product := by decide)
    (hpr : p ≤ r := by decide) (hqr : q ≤ r := by decide) : Follows vars r (x + y) (x' + y') :=
  hx.binary (fun _ _ => rfl) RegularNumeric.finite_add RegularNumeric.add_congr
    (fun hx hy ha hb hr => hx.add hy ha hb hr hp hq hq' hpr hqr) hy

theorem Follows.sub (hx : Follows vars p x x') (hy : Follows vars .unary y y')
    (hp : .unary ≤ p := by decide) (hpr : p ≤ r := by decide) :
    Follows vars r (x - y) (x' - y') :=
  hx.binary (fun _ _ => rfl) RegularNumeric.finite_sub RegularNumeric.sub_congr
    (fun hx hy ha hb hr => hx.sub hy ha hb hr hp hpr) hy

theorem Follows.mul (hx : Follows vars p x x') (hy : Follows vars .unary y y')
    (hp : .unary ≤ p := by decide) (hp' : p ≤ .product := by decide) (hpr : p ≤ r := by decide) :
    Follows vars r (x * y) (x' * y') :=
  hx.binary (fun _ _ => rfl) RegularNumeric.finite_mul RegularNumeric.mul_congr
    (fun hx hy ha hb hr => by
      obtain ⟨w, hw, hwab⟩ := hx.mul hy ha hb hr hp hp'
      exact ⟨w, hw.mono hpr, hwab⟩) hy

/-- Unlike a product, a quotient by one of the numbers that angles are divided by is never the
dividend itself. -/
theorem Follows.divBy (hc : c ∈ ([2, -2, 4, -4] : List R)) (hx : Follows vars p x x')
    (hp : .unary ≤ p := by decide) (hp' : p ≤ .product := by decide) :
    Follows vars r (x.divBy c) (x'.divBy c) := by
  obtain ⟨a, rfl, hx⟩ := hx
  obtain ⟨hfinite, hzero, hone⟩ := RegularNumeric.divisor hc
  have hdivisor : (Scalar.number c).Has vars .unary c := ⟨rfl, hfinite⟩
  have hneverOne : (Scalar.number c).isOne → p ≤ r := fun h => by
    rw [isOne, hone] at h
    cases h
  refine ⟨a / c, rfl, fun hr => ?_⟩
  have ha := RegularNumeric.finite_div hr
  obtain ⟨v, hv, hva⟩ := hx ha
  have hquotient := RegularNumeric.div_congr hva hr
  obtain ⟨u, hu, huv⟩ := hv.quotient hdivisor (LawfulNumeric.finite_of_beq hva ha) hfinite hzero
    (LawfulNumeric.finite_of_beq hquotient hr) hneverOne hp hp'
  exact ⟨u, hu, BEq.trans huv hquotient⟩

theorem Follows.neg (hx : Follows vars .unary x x') : Follows vars p (-x) (-x') := by
  obtain ⟨a, rfl, hx⟩ := hx
  refine ⟨-a, rfl, fun hr => ?_⟩
  obtain ⟨v, hv, hva⟩ := hx (RegularNumeric.finite_neg hr)
  have hneg := RegularNumeric.neg_congr hva hr
  exact ⟨-v, hv.neg (LawfulNumeric.finite_of_beq hneg hr), hneg⟩

/-- A call with what follows a number follows the function of the number. -/
theorem Follows.applied {name : String} {f : R → R} (hname : IsName name)
    (hf : ∀ v, Expression.call name [v] = some (f v))
    (hfinite : ∀ {a}, Numeric.isFinite (f a) → Numeric.isFinite a)
    (hcongr : ∀ {a a'}, a == a' → Numeric.isFinite (f a') → f a == f a')
    (hx : Follows vars q x x') : Follows vars p (applied name f x) (applied name f x') := by
  obtain ⟨a, rfl, hx⟩ := hx
  refine ⟨f a, rfl, fun hr => ?_⟩
  obtain ⟨v, hv, hva⟩ := hx (hfinite hr)
  have hfv := hcongr hva hr
  have h := hv.applied hname hf (LawfulNumeric.finite_of_beq hfv hr)
  exact ⟨f v, h.mono p.primary_le, hfv⟩

theorem Follows.sin : Follows vars q x x' → Follows vars p x.sin x'.sin :=
  Follows.applied (isName_of_munch rfl rfl rfl) (fun _ => rfl) RegularNumeric.finite_sin
    RegularNumeric.sin_congr

theorem Follows.cos : Follows vars q x x' → Follows vars p x.cos x'.cos :=
  Follows.applied (isName_of_munch rfl rfl rfl) (fun _ => rfl) RegularNumeric.finite_cos
    RegularNumeric.cos_congr

theorem Follows.sqrt : Follows vars q x x' → Follows vars p x.sqrt x'.sqrt :=
  Follows.applied (isName_of_munch rfl rfl rfl) (fun _ => rfl) RegularNumeric.finite_sqrt
    RegularNumeric.sqrt_congr

end Scalar
end QuantumOps
