import QuantumOps.Scalar
import QuantumOps.Proofs.Scalar.Laws

/-! Arithmetic of scalars against arithmetic of their values. Every operation either computes with
numbers, leaves something out that would not change the value, or writes a text; the text is a
primary, so that it keeps its value wherever it is put. -/
namespace QuantumOps
open Expression (Phrase Tree Token Spells Variables numbers IsName isName_of_munch)

namespace Scalar

variable {R : Type} [Numeric R]

theorem evaluateFinite_eq_ok_iff {vars : Variables R} {e : String} {v : R} :
    Expression.evaluateFinite vars e = .ok v ↔
      Expression.evaluate vars e = .ok v ∧ Numeric.isFinite v := by
  rw [Expression.evaluateFinite]
  cases Expression.evaluate vars e with
  | error err => simp [bind, Except.bind]
  | ok w =>
    simp only [bind, Except.bind]
    split
    · rename_i hw
      constructor
      · rintro ⟨⟩
        exact ⟨rfl, hw⟩
      · rintro ⟨⟨⟩, -⟩
        rfl
    · rename_i hw
      constructor
      · rintro ⟨⟩
      · rintro ⟨⟨⟩, hv⟩
        exact (hw hv).elim

/-- A number is finite; a symbolic scalar need not be. -/
def IsFinite : Scalar R → Prop
  | number x => Numeric.isFinite x
  | symbol _ => True

instance (s : Scalar R) : Decidable s.IsFinite :=
  match s with
  | number x => inferInstanceAs (Decidable (Numeric.isFinite x = true))
  | symbol _ => inferInstanceAs (Decidable True)

/-- The scalar is a finite number or a text that is one phrase of the kind. -/
def Fits (p : Phrase) : Scalar R → Prop
  | number x => Numeric.isFinite x
  | symbol e => ∃ t, Spells p e t

/-- The scalar is the finite number, or a text that is one phrase of the kind with the value. -/
def Has (vars : Variables R) (p : Phrase) (s : Scalar R) (v : R) : Prop :=
  match s with
  | number x => x = v ∧ Numeric.isFinite x
  | symbol e => ∃ t, Spells p e t ∧ t.value (numbers vars) = some v

variable {vars : Variables R} {p q r : Phrase} {x y : Scalar R} {a b : R}

theorem Fits.mono (h : p ≤ q) (hx : x.Fits p) : x.Fits q := by
  cases x with
  | number v => exact hx
  | symbol e =>
    obtain ⟨t, ht⟩ := hx
    exact ⟨t, ht.mono h⟩

theorem Has.mono (h : p ≤ q) (hx : x.Has vars p a) : x.Has vars q a := by
  cases x with
  | number v => exact hx
  | symbol e =>
    obtain ⟨t, ht, hv⟩ := hx
    exact ⟨t, ht.mono h, hv⟩

theorem Fits.spells [LawfulNumeric R] (h : .unary ≤ p) (hx : x.Fits p) :
    ∃ t, Spells p x.expression t := by
  cases x with
  | number v =>
    obtain ⟨t, ht, -⟩ := format_spells (R := R) hx
    exact ⟨t, ht.mono h⟩
  | symbol e => exact hx

theorem Has.spells [LawfulNumeric R] (h : .unary ≤ p) (hx : x.Has vars p a) :
    ∃ t, Spells p x.expression t ∧ t.value (numbers vars) = some a := by
  cases x with
  | number v =>
    obtain ⟨rfl, hv⟩ := hx
    obtain ⟨t, ht, hval⟩ := format_spells (R := R) hv
    exact ⟨t, ht.mono h, hval vars⟩
  | symbol e => exact hx

/-- A scalar that fits and has a value has it in the sense above. -/
theorem Fits.has (hx : x.Fits p) (h : x.evaluate vars = .ok a) : x.Has vars p a := by
  cases x with
  | number v =>
    cases h
    exact ⟨rfl, hx⟩
  | symbol e =>
    obtain ⟨t, ht⟩ := hx
    refine ⟨t, ht, ?_⟩
    rw [← (ht.mono p.le_sum).evaluate]
    exact (evaluateFinite_eq_ok_iff.mp h).1

theorem Has.evaluate (hx : x.Has vars p a) (ha : Numeric.isFinite a) :
    x.evaluate vars = .ok a := by
  cases x with
  | number v =>
    obtain ⟨rfl, -⟩ := hx
    rfl
  | symbol e =>
    obtain ⟨t, ht, hv⟩ := hx
    exact evaluateFinite_eq_ok_iff.mpr ⟨(ht.mono p.le_sum).evaluate.mpr hv, ha⟩

theorem Has.isZero (hx : x.Has vars p a) (h : x.isZero) : a == 0 := by
  cases x with
  | number v =>
    obtain ⟨rfl, -⟩ := hx
    exact h
  | symbol e => cases h

theorem Has.isOne (hx : x.Has vars p a) (h : x.isOne) : a == 1 := by
  cases x with
  | number v =>
    obtain ⟨rfl, -⟩ := hx
    exact h
  | symbol e => cases h

/-- What adding two scalars can come to. -/
theorem add_cases (x y : Scalar R) :
    (∃ a b, x = number a ∧ y = number b ∧ x + y = number (a + b)) ∨
    (x.isZero ∧ x + y = y) ∨ (y.isZero ∧ x + y = x) ∨ x + y = operation x "+" y := by
  change (∃ a b, x = number a ∧ y = number b ∧ add x y = number (a + b)) ∨
    (x.isZero ∧ add x y = y) ∨ (y.isZero ∧ add x y = x) ∨ add x y = operation x "+" y
  cases x <;> cases y <;> simp only [add] <;> grind

theorem sub_cases (x y : Scalar R) :
    (∃ a b, x = number a ∧ y = number b ∧ x - y = number (a - b)) ∨
    (y.isZero ∧ x - y = x) ∨ (x.isZero ∧ x - y = -y) ∨ x - y = operation x "-" y := by
  change (∃ a b, x = number a ∧ y = number b ∧ sub x y = number (a - b)) ∨
    (y.isZero ∧ sub x y = x) ∨ (x.isZero ∧ sub x y = y.neg) ∨ sub x y = operation x "-" y
  cases x <;> cases y <;> simp only [sub] <;> grind

theorem mul_cases (x y : Scalar R) :
    (∃ a b, x = number a ∧ y = number b ∧ x * y = number (a * b)) ∨
    ((x.isZero ∨ y.isZero) ∧ x * y = number 0) ∨ (x.isOne ∧ x * y = y) ∨
    (y.isOne ∧ x * y = x) ∨ x * y = operation x "*" y := by
  change (∃ a b, x = number a ∧ y = number b ∧ mul x y = number (a * b)) ∨
    ((x.isZero ∨ y.isZero) ∧ mul x y = number 0) ∨ (x.isOne ∧ mul x y = y) ∨
    (y.isOne ∧ mul x y = x) ∨ mul x y = operation x "*" y
  cases x <;> cases y <;> simp only [mul] <;> grind

theorem quotient_cases (x y : Scalar R) :
    (∃ a b, x = number a ∧ y = number b ∧ quotient x y = number (a / b)) ∨
    (x.isZero ∧ quotient x y = number 0) ∨ (y.isOne ∧ quotient x y = x) ∨
    quotient x y = operation x "/" y := by
  cases x <;> cases y <;> simp only [quotient] <;> grind

theorem pow_cases (x y : Scalar R) :
    (∃ a b, x = number a ∧ y = number b ∧ pow x y = number (Numeric.pow a b)) ∨
    (y.isOne ∧ pow x y = x) ∨ pow x y = called "pow" x y := by
  cases x <;> cases y <;> simp only [pow] <;> grind

theorem Has.neg (hx : x.Has vars .unary a) (hr : Numeric.isFinite (-a)) :
    (-x).Has vars p (-a) := by
  cases x with
  | number v =>
    obtain ⟨rfl, -⟩ := hx
    exact ⟨rfl, hr⟩
  | symbol e =>
    obtain ⟨t, ht, hv⟩ := hx
    exact ⟨_, ht.negation.mono p.primary_le, by rw [Tree.value, Tree.value, hv]; rfl⟩

/-- A function of one argument keeps to the phrases if it is one that texts can call. -/
theorem Has.applied {name : String} {f : R → R} (hname : IsName name)
    (hf : ∀ v, Expression.call name [v] = some (f v)) (hx : x.Has vars p a)
    (hr : Numeric.isFinite (f a)) : (applied name f x).Has vars .primary (f a) := by
  cases x with
  | number v =>
    obtain ⟨rfl, -⟩ := hx
    exact ⟨rfl, hr⟩
  | symbol e =>
    obtain ⟨t, ht, hv⟩ := hx
    refine ⟨_, .call hname (ht.mono p.le_sum), ?_⟩
    rw [Tree.value, Tree.values, Tree.values, hv]
    exact hf a

section
variable [LawfulNumeric R]

theorem Has.of_beq {v w : R} (h : v == w) (hw : Numeric.isFinite w) :
    (number v).Has vars p v ∧ v == w :=
  ⟨⟨rfl, LawfulNumeric.finite_of_beq h hw⟩, h⟩

theorem Has.of_number {v : R} (hv : Numeric.isFinite v) : (number v).Has vars p v ∧ v == v :=
  Has.of_beq (LawfulNumeric.beq_self hv) hv

theorem Has.add (hx : x.Has vars p a) (hy : y.Has vars q b) (ha : Numeric.isFinite a)
    (hb : Numeric.isFinite b) (hr : Numeric.isFinite (a + b)) (hp : .unary ≤ p := by decide)
    (hq : .unary ≤ q := by decide) (hq' : q ≤ .product := by decide) (hpr : p ≤ r := by decide)
    (hqr : q ≤ r := by decide) : ∃ w, (x + y).Has vars r w ∧ w == a + b := by
  rcases add_cases x y with ⟨c, d, rfl, rfl, h⟩ | ⟨hz, h⟩ | ⟨hz, h⟩ | h <;> rw [h]
  · obtain ⟨rfl, -⟩ := hx
    obtain ⟨rfl, -⟩ := hy
    exact ⟨_, Has.of_number hr⟩
  · exact ⟨b, hy.mono hqr, LawfulNumeric.zero_add hb (hx.isZero hz)⟩
  · exact ⟨a, hx.mono hpr, LawfulNumeric.add_zero ha (hy.isZero hz)⟩
  · obtain ⟨t, ht, hv⟩ := hx.spells hp
    obtain ⟨u, hu, hw⟩ := hy.spells hq
    have hsum := ((ht.mono p.le_sum).add (hu.mono hq')).operation
    refine ⟨a + b, ⟨_, hsum.mono r.primary_le, ?_⟩, LawfulNumeric.beq_self hr⟩
    rw [Tree.value, Tree.value, hv, hw]
    rfl

theorem Has.sub (hx : x.Has vars p a) (hy : y.Has vars .unary b) (ha : Numeric.isFinite a)
    (hb : Numeric.isFinite b) (hr : Numeric.isFinite (a - b)) (hp : .unary ≤ p := by decide)
    (hpr : p ≤ r := by decide) : ∃ w, (x - y).Has vars r w ∧ w == a - b := by
  rcases sub_cases x y with ⟨c, d, rfl, rfl, h⟩ | ⟨hz, h⟩ | ⟨hz, h⟩ | h <;> rw [h]
  · obtain ⟨rfl, -⟩ := hx
    obtain ⟨rfl, -⟩ := hy
    exact ⟨_, Has.of_number hr⟩
  · exact ⟨a, hx.mono hpr, LawfulNumeric.sub_zero ha (hy.isZero hz)⟩
  · have hneg := LawfulNumeric.zero_sub hb (hx.isZero hz)
    exact ⟨-b, hy.neg (LawfulNumeric.finite_of_beq hneg hr), hneg⟩
  · obtain ⟨t, ht, hv⟩ := hx.spells hp
    obtain ⟨u, hu, hw⟩ := hy.spells (by decide)
    have hdiff := ((ht.mono p.le_sum).sub (hu.mono (by decide))).operation
    refine ⟨a - b, ⟨_, hdiff.mono r.primary_le, ?_⟩, LawfulNumeric.beq_self hr⟩
    rw [Tree.value, Tree.value, hv, hw]
    rfl

theorem Has.mul (hx : x.Has vars p a) (hy : y.Has vars .unary b) (ha : Numeric.isFinite a)
    (hb : Numeric.isFinite b) (hr : Numeric.isFinite (a * b)) (hp : .unary ≤ p := by decide)
    (hp' : p ≤ .product := by decide) : ∃ w, (x * y).Has vars p w ∧ w == a * b := by
  rcases mul_cases x y with ⟨c, d, rfl, rfl, h⟩ | ⟨hz, h⟩ | ⟨ho, h⟩ | ⟨ho, h⟩ | h <;> rw [h]
  · obtain ⟨rfl, -⟩ := hx
    obtain ⟨rfl, -⟩ := hy
    exact ⟨_, Has.of_number hr⟩
  · rcases hz with hz | hz
    · exact ⟨0, Has.of_beq (LawfulNumeric.zero_mul hb (hx.isZero hz)) hr⟩
    · exact ⟨0, Has.of_beq (LawfulNumeric.mul_zero ha (hy.isZero hz)) hr⟩
  · exact ⟨b, hy.mono hp, LawfulNumeric.one_mul hb (hx.isOne ho)⟩
  · exact ⟨a, hx, LawfulNumeric.mul_one ha (hy.isOne ho)⟩
  · obtain ⟨t, ht, hv⟩ := hx.spells hp
    obtain ⟨u, hu, hw⟩ := hy.spells (by decide)
    have hproduct := ((ht.mono hp').mul hu).operation
    refine ⟨a * b, ⟨_, hproduct.mono p.primary_le, ?_⟩, LawfulNumeric.beq_self hr⟩
    rw [Tree.value, Tree.value, hv, hw]
    rfl

/-- Only a quotient by one is a phrase of the same kind as the dividend. -/
theorem Has.quotient (hx : x.Has vars p a) (hy : y.Has vars .unary b) (ha : Numeric.isFinite a)
    (hb : Numeric.isFinite b) (hb' : (b == 0) = false) (hr : Numeric.isFinite (a / b))
    (hpr : y.isOne → p ≤ r) (hp : .unary ≤ p := by decide) (hp' : p ≤ .product := by decide) :
    ∃ w, (quotient x y).Has vars r w ∧ w == a / b := by
  rcases quotient_cases x y with ⟨c, d, rfl, rfl, h⟩ | ⟨hz, h⟩ | ⟨ho, h⟩ | h <;> rw [h]
  · obtain ⟨rfl, -⟩ := hx
    obtain ⟨rfl, -⟩ := hy
    exact ⟨_, Has.of_number hr⟩
  · exact ⟨0, Has.of_beq (LawfulNumeric.zero_div hb hb' (hx.isZero hz)) hr⟩
  · exact ⟨a, hx.mono (hpr ho), LawfulNumeric.div_one ha (hy.isOne ho)⟩
  · obtain ⟨t, ht, hv⟩ := hx.spells hp
    obtain ⟨u, hu, hw⟩ := hy.spells (by decide)
    have hquotient := ((ht.mono hp').div hu).operation
    refine ⟨a / b, ⟨_, hquotient.mono r.primary_le, ?_⟩, LawfulNumeric.beq_self hr⟩
    rw [Tree.value, Tree.value, hv, hw]
    simp only [Option.bind_some, Expression.numbers_div, hb', Bool.false_eq_true, if_false]
    rfl

theorem Has.called {name : String} {f : R → R → R} (hname : IsName name)
    (hf : ∀ v w, Expression.call name [v, w] = some (f v w)) (hx : x.Has vars p a)
    (hy : y.Has vars q b) (hp : .unary ≤ p) (hq : .unary ≤ q) :
    (called name x y).Has vars .primary (f a b) := by
  obtain ⟨t, ht, hv⟩ := hx.spells hp
  obtain ⟨u, hu, hw⟩ := hy.spells hq
  refine ⟨_, .call_pair hname (ht.mono p.le_sum) (hu.mono q.le_sum), ?_⟩
  rw [Tree.value, Tree.values, Tree.values, Tree.values, hv, hw]
  exact hf a b

theorem Has.atan2 (hx : x.Has vars p a) (hy : y.Has vars q b)
    (hr : Numeric.isFinite (Numeric.atan2 a b)) (hp : .unary ≤ p := by decide)
    (hq : .unary ≤ q := by decide) : (atan2 x y).Has vars .primary (Numeric.atan2 a b) := by
  have hcall : (Scalar.called "atan2" x y).Has vars .primary (Numeric.atan2 a b) :=
    hx.called (isName_of_munch rfl rfl rfl) (fun _ _ => rfl) hy hp hq
  cases x with
  | symbol e => exact hcall
  | number v =>
    cases y with
    | symbol e => exact hcall
    | number w =>
      obtain ⟨rfl, -⟩ := hx
      obtain ⟨rfl, -⟩ := hy
      exact ⟨rfl, hr⟩

theorem Has.pow (hx : x.Has vars p a) (hy : y.Has vars q b) (ha : Numeric.isFinite a)
    (hr : Numeric.isFinite (Numeric.pow a b)) (hp : .unary ≤ p := by decide)
    (hq : .unary ≤ q := by decide) : ∃ w, (pow x y).Has vars p w ∧ w == Numeric.pow a b := by
  rcases pow_cases x y with ⟨c, d, rfl, rfl, h⟩ | ⟨ho, h⟩ | h <;> rw [h]
  · obtain ⟨rfl, -⟩ := hx
    obtain ⟨rfl, -⟩ := hy
    exact ⟨_, Has.of_number hr⟩
  · exact ⟨a, hx, LawfulNumeric.pow_one ha (hy.isOne ho)⟩
  · have hcall : (Scalar.called "pow" x y).Has vars .primary (Numeric.pow a b) :=
      hx.called (isName_of_munch rfl rfl rfl) (fun _ _ => rfl) hy hp hq
    exact ⟨_, hcall.mono p.primary_le, LawfulNumeric.beq_self hr⟩

end

end Scalar
end QuantumOps
