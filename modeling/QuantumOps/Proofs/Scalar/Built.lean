import QuantumOps.Proofs.Exact.Whole
import QuantumOps.Proofs.Scalar.Arithmetic

/-! Scalars that the library itself builds, from finite numbers and single names by its operations.
An operation on such scalars evaluates to the operation on their values. -/
namespace QuantumOps.Scalar
open Expression (Phrase Tree Token Spells Variables numbers IsName isName_of_munch tokenize)

section
variable {R : Type} [Numeric R] {p q : Phrase} {x y : Scalar R}

theorem Fits.symbol_mono {e : String} (hx : (symbol e : Scalar R).Fits .primary) :
    (symbol e : Scalar R).Fits p :=
  hx.mono p.primary_le

theorem Fits.neg (hx : x.Fits .unary) (hr : (-x).IsFinite) : (-x).Fits .unary := by
  cases x with
  | number v => exact hr
  | symbol e =>
    obtain ⟨t, ht⟩ := hx
    exact ⟨_, ht.negation.mono (by decide)⟩

theorem Fits.applied {name : String} {f : R → R} (hname : IsName name) (hx : x.Fits p)
    (hr : (applied name f x).IsFinite) : (applied name f x).Fits .primary := by
  cases x with
  | number v => exact hr
  | symbol e =>
    obtain ⟨t, ht⟩ := hx
    exact ⟨_, .call hname (ht.mono p.le_sum)⟩

variable [LawfulNumeric R]

theorem Fits.add (hx : x.Fits .unary) (hy : y.Fits .unary) (hr : (x + y).IsFinite) :
    (x + y).Fits .unary := by
  rcases add_cases x y with ⟨c, d, rfl, rfl, h⟩ | ⟨-, h⟩ | ⟨-, h⟩ | h <;> rw [h] at hr ⊢
  · exact hr
  · exact hy
  · exact hx
  · obtain ⟨t, ht⟩ := hx.spells (by decide)
    obtain ⟨u, hu⟩ := hy.spells (by decide)
    exact ⟨_, ((ht.mono (by decide)).add (hu.mono (by decide))).operation.mono (by decide)⟩

theorem Fits.sub (hx : x.Fits .unary) (hy : y.Fits .unary) (hr : (x - y).IsFinite) :
    (x - y).Fits .unary := by
  rcases sub_cases x y with ⟨c, d, rfl, rfl, h⟩ | ⟨-, h⟩ | ⟨-, h⟩ | h <;> rw [h] at hr ⊢
  · exact hr
  · exact hx
  · exact hy.neg hr
  · obtain ⟨t, ht⟩ := hx.spells (by decide)
    obtain ⟨u, hu⟩ := hy.spells (by decide)
    exact ⟨_, ((ht.mono (by decide)).sub (hu.mono (by decide))).operation.mono (by decide)⟩

theorem Fits.mul (hx : x.Fits .unary) (hy : y.Fits .unary) (hr : (x * y).IsFinite) :
    (x * y).Fits .unary := by
  rcases mul_cases x y with ⟨c, d, rfl, rfl, h⟩ | ⟨-, h⟩ | ⟨-, h⟩ | ⟨-, h⟩ | h <;> rw [h] at hr ⊢
  · exact hr
  · exact hr
  · exact hy
  · exact hx
  · obtain ⟨t, ht⟩ := hx.spells (by decide)
    obtain ⟨u, hu⟩ := hy.spells (by decide)
    exact ⟨_, ((ht.mono (by decide)).mul hu).operation.mono (by decide)⟩

theorem Fits.quotient (hx : x.Fits .unary) (hy : y.Fits .unary) (hr : (quotient x y).IsFinite) :
    (quotient x y).Fits .unary := by
  rcases quotient_cases x y with ⟨c, d, rfl, rfl, h⟩ | ⟨-, h⟩ | ⟨-, h⟩ | h <;> rw [h] at hr ⊢
  · exact hr
  · exact hr
  · exact hx
  · obtain ⟨t, ht⟩ := hx.spells (by decide)
    obtain ⟨u, hu⟩ := hy.spells (by decide)
    exact ⟨_, ((ht.mono (by decide)).div hu).operation.mono (by decide)⟩

theorem Fits.called {name : String} (hname : IsName name) (hx : x.Fits .unary)
    (hy : y.Fits .unary) : (called name x y).Fits .primary := by
  obtain ⟨t, ht⟩ := hx.spells (by decide)
  obtain ⟨u, hu⟩ := hy.spells (by decide)
  exact ⟨_, .call_pair hname (ht.mono (by decide)) (hu.mono (by decide))⟩

theorem Fits.atan2 (hx : x.Fits .unary) (hy : y.Fits .unary) (hr : (atan2 x y).IsFinite) :
    (atan2 x y).Fits .unary := by
  have hcall : (Scalar.called "atan2" x y).Fits .primary :=
    hx.called (isName_of_munch rfl rfl rfl) hy
  cases x with
  | symbol e => exact hcall.symbol_mono
  | number v =>
    cases y with
    | symbol e => exact hcall.symbol_mono
    | number w => exact hr

theorem Fits.pow (hx : x.Fits .unary) (hy : y.Fits .unary) (hr : (pow x y).IsFinite) :
    (pow x y).Fits .unary := by
  rcases pow_cases x y with ⟨c, d, rfl, rfl, h⟩ | ⟨-, h⟩ | h <;> rw [h] at hr ⊢
  · exact hr
  · exact hx
  · have hcall : (Scalar.called "pow" x y).Fits .primary :=
      hx.called (isName_of_munch rfl rfl rfl) hy
    exact hcall.symbol_mono

end

/-- The operations on one scalar. -/
inductive Function
  | neg
  | cos
  | sin
  | sqrt
  | exp
  | abs

/-- The operations on two scalars. -/
inductive Operator
  | add
  | sub
  | mul
  | div
  | atan2
  | pow

section
variable {R : Type} [Numeric R]

namespace Function

def apply : Function → Scalar R → Scalar R
  | neg => fun x => -x
  | cos => Scalar.cos
  | sin => Scalar.sin
  | sqrt => Scalar.sqrt
  | exp => Scalar.exp
  | abs => Scalar.abs

/-- The operation on numbers. -/
def value : Function → R → R
  | neg => fun a => -a
  | cos => Numeric.cos
  | sin => Numeric.sin
  | sqrt => Numeric.sqrt
  | exp => Numeric.exp
  | abs => Numeric.abs

end Function

namespace Operator

def apply (x y : Scalar R) : Operator → Except Expression.Error (Scalar R)
  | add => .ok (x + y)
  | sub => .ok (x - y)
  | mul => .ok (x * y)
  | div => x.div y
  | atan2 => .ok (Scalar.atan2 x y)
  | pow => .ok (Scalar.pow x y)

/-- The operation on numbers. -/
def value (a b : R) : Operator → R
  | add => a + b
  | sub => a - b
  | mul => a * b
  | div => a / b
  | atan2 => Numeric.atan2 a b
  | pow => Numeric.pow a b

end Operator

/-- The scalars that come from finite numbers and single names by operations whose results, where
they are numbers, are finite. -/
inductive Built : Scalar R → Prop
  | number {v : R} (h : Numeric.isFinite v) : Built (number v)
  | name {e : String} {t : Token} {last : Nat} (h : tokenize e = ⟨[t], .endOfText last⟩)
      (hk : t.kind = .identifier) : Built (symbol e)
  | function (f : Function) {x : Scalar R} (hx : Built x) (hr : (f.apply x).IsFinite) :
      Built (f.apply x)
  | operator (o : Operator) {x y z : Scalar R} (hx : Built x) (hy : Built y)
      (hz : o.apply x y = .ok z) (hr : z.IsFinite) : Built z

variable {x y : Scalar R}

theorem Fits.function (f : Function) (hx : x.Fits .unary) (hr : (f.apply x).IsFinite) :
    (f.apply x).Fits .unary := by
  cases f with
  | neg => exact hx.neg hr
  | cos | sin | sqrt | exp | abs =>
    exact (hx.applied (isName_of_munch rfl rfl rfl) hr).mono (by decide)

theorem Has.function (f : Function) {vars : Variables R} {a : R} (hx : x.Has vars .unary a)
    (hr : Numeric.isFinite (f.value a)) : (f.apply x).Has vars .unary (f.value a) := by
  cases f with
  | neg => exact hx.neg hr
  | cos | sin | sqrt | exp | abs =>
    exact (hx.applied (isName_of_munch rfl rfl rfl) (fun _ => rfl) hr).mono (by decide)

theorem div_eq_ok {z : Scalar R} (h : x.div y = .ok z) : z = quotient x y := by
  rw [div] at h
  split at h
  · cases h
  · cases h
    rfl

variable [LawfulNumeric R]

theorem Fits.operator (o : Operator) {z : Scalar R} (hx : x.Fits .unary) (hy : y.Fits .unary)
    (hz : o.apply x y = .ok z) (hr : z.IsFinite) : z.Fits .unary := by
  cases o with
  | add =>
    cases hz
    exact hx.add hy hr
  | sub =>
    cases hz
    exact hx.sub hy hr
  | mul =>
    cases hz
    exact hx.mul hy hr
  | div =>
    obtain rfl := div_eq_ok hz
    exact hx.quotient hy hr
  | atan2 =>
    cases hz
    exact hx.atan2 hy hr
  | pow =>
    cases hz
    exact hx.pow hy hr

/-- Whatever the library builds is a finite number or one unary. -/
theorem Built.fits (h : x.Built) : x.Fits .unary := by
  induction h with
  | number h => exact h
  | @name e t last h hk =>
    refine ⟨.name t.lexeme, .of_tokenize (congrArg Expression.Tokens.ending h) ?_⟩
    rw [h]
    exact .power (.primary (.name hk))
  | function f _ hr ih => exact ih.function f hr
  | operator o _ _ hz hr ihx ihy => exact ihx.operator o ihy hz hr

theorem Has.operator (o : Operator) {vars : Variables R} {a b : R} (hx : x.Has vars .unary a)
    (hy : y.Has vars .unary b) (ha : Numeric.isFinite a) (hb : Numeric.isFinite b)
    (hr : Numeric.isFinite (o.value a b)) (hdiv : o = .div → (b == 0) = false) :
    ∃ z, o.apply x y = .ok z ∧ ∃ w, z.Has vars .unary w ∧ w == o.value a b := by
  cases o with
  | add =>
    exact ⟨_, rfl, hx.add hy ha hb hr⟩
  | sub => exact ⟨_, rfl, hx.sub hy ha hb hr⟩
  | mul => exact ⟨_, rfl, hx.mul hy ha hb hr⟩
  | div =>
    have hb0 := hdiv rfl
    have hy0 : y.isZero = false := by
      cases hz : y.isZero with
      | false => rfl
      | true =>
        rw [hy.isZero hz] at hb0
        cases hb0
    refine ⟨Scalar.quotient x y, by simp [Operator.apply, div, hy0], ?_⟩
    exact hx.quotient hy ha hb hb0 hr fun _ => by decide
  | atan2 =>
    exact ⟨_, rfl, _, (hx.atan2 hy hr).mono (by decide), LawfulNumeric.beq_self hr⟩
  | pow => exact ⟨_, rfl, hx.pow hy ha hr⟩

/-- An operation on scalars that the library has built has the value of the operation on their
values, as far as equality of numbers sees. -/
theorem Built.evaluate_eq_value (vars : Variables R) {a b : R} (hx : x.Built)
    (ha : x.evaluate vars = .ok a) (ha' : Numeric.isFinite a) :
    (∀ f : Function, Numeric.isFinite (f.value a) →
      ∃ w, (f.apply x).evaluate vars = .ok w ∧ w == f.value a) ∧
    ∀ {y : Scalar R}, y.Built → y.evaluate vars = .ok b → Numeric.isFinite b →
      ∀ o : Operator, Numeric.isFinite (o.value a b) → (o = .div → (b == 0) = false) →
        ∃ z, o.apply x y = .ok z ∧ ∃ w, z.evaluate vars = .ok w ∧ w == o.value a b := by
  have hxa := hx.fits.has ha
  refine ⟨fun f hr => ?_, fun hy hb hb' o hr hdiv => ?_⟩
  · exact ⟨_, (hxa.function f hr).evaluate hr, LawfulNumeric.beq_self hr⟩
  · obtain ⟨z, hz, w, hw, hwr⟩ := hxa.operator o (hy.fits.has hb) ha' hb' hr hdiv
    exact ⟨z, hz, w, hw.evaluate (LawfulNumeric.finite_of_beq hwr hr), hwr⟩

/-- A name with a negative value, its negation, and a negative number taken from it. -/
theorem Built.evaluate_negative :
    let vars : Variables Whole := Dict.empty.insert "theta" (.value (-3))
    let theta : Scalar Whole := symbol "theta"
    (∃ w, (-theta).evaluate vars = .ok w ∧ w == Whole.value 3) ∧
      ∃ z, Operator.sub.apply theta (Scalar.number (.value (-2))) = .ok z ∧
        ∃ w, z.evaluate vars = .ok w ∧ w == Whole.value (-1) := by
  intro vars theta
  have hname : IsName "theta" := isName_of_munch rfl rfl rfl
  have hbuilt : theta.Built := by
    obtain ⟨t, last, htokens, hkind, -⟩ := hname 1
    exact .name htokens hkind
  have hvalue : theta.Has vars .primary (.value (-3)) := ⟨_, .name hname, rfl⟩
  have h := hbuilt.evaluate_eq_value vars (b := .value (-2)) (hvalue.evaluate rfl) rfl
  exact ⟨h.1 .neg rfl, h.2 (.number rfl) rfl rfl .sub rfl nofun⟩

end
end QuantumOps.Scalar
