import QuantumOps.Proofs.Gate.Product
import QuantumOps.Proofs.Numeric.Double

/-! Which gates with doubles for components pass the check of their norm. The norm has no value just
when a component has none, and then the check lets the gate pass; otherwise it lets pass just the
gates with a norm near one. Products are divided by their norm without a look at it, and get
components without a value when it is zero or a component is infinite. -/
namespace QuantumOps
open Double
open Scalar (number symbol)

/-- Parts with doubles as components. -/
structure DoubleParts where
  alpha : Amplitude Float
  beta : Amplitude Float
  phase : Scalar Float

namespace DoubleParts

def toParts (p : DoubleParts) : GateParts Float :=
  ⟨number p.alpha.re, number p.alpha.im, number p.beta.re, number p.beta.im, p.phase⟩

def toGate (p : DoubleParts) : SingleGate (Scalar Float) := p.toParts.toGate

def components (p : DoubleParts) : List Float := [p.alpha.re, p.alpha.im, p.beta.re, p.beta.im]

def hasNaN (p : DoubleParts) : Bool := p.components.any Float.isNaN

def isFinite (p : DoubleParts) : Bool := p.components.all Float.isFinite

def isZero (p : DoubleParts) : Bool := p.components.all (· == 0)

/-- The squared norm, as it is computed. -/
def normSq (p : DoubleParts) : Float :=
  p.alpha.re * p.alpha.re + p.alpha.im * p.alpha.im + p.beta.re * p.beta.re + p.beta.im * p.beta.im

/-- The norm, as it is computed. -/
def norm (p : DoubleParts) : Float := p.normSq.sqrt

/-- The squared norm is a number within the tolerance of one. -/
def isNearUnit (p : DoubleParts) : Bool :=
  p.normSq.isFinite && (p.normSq - 1).abs ≤ Numeric.unitaryTolerance

/-- Both amplitudes divided by a double. -/
def divBy (p : DoubleParts) (x : Float) : DoubleParts :=
  ⟨⟨p.alpha.re / x, p.alpha.im / x⟩, ⟨p.beta.re / x, p.beta.im / x⟩, p.phase⟩

/-- Parts divided by their norm, if that differs from one by more than the distance to the next
double. -/
def normalized (p : DoubleParts) : DoubleParts :=
  if Numeric.epsilon < (p.norm - 1).abs then p.divBy p.norm else p

/-- The parts of the product. -/
def product (p q : DoubleParts) : DoubleParts :=
  let z := p.alpha.times q.alpha
  let w := p.beta.conj.times q.beta
  let u := p.beta.times q.alpha
  let v := q.beta.times p.alpha.conj
  ⟨⟨z.re - w.re, z.im - w.im⟩, ⟨u.re + v.re, u.im + v.im⟩, p.phase + q.phase⟩

variable {p q : DoubleParts}

theorem toParts_normalized : p.toParts.normalized = p.normalized.toParts := by
  rw [normalized, apply_ite toParts]
  exact if_congr decide_eq_true_iff rfl rfl

theorem mul_eq_toGate {g h : SingleGate (Scalar Float)} (hg : g.parts = p.toParts)
    (hh : h.parts = q.toParts) : g.mul h = (p.product q).normalized.toGate := by
  have hproduct : p.toParts.product q.toParts = (p.product q).toParts := rfl
  rw [SingleGate.mul, hg, hh, hproduct, toParts_normalized, toGate]

theorem phase_normalized : p.normalized.phase = p.phase := by
  rw [normalized]
  split <;> rfl

theorem mem_components {x : Float} : x ∈ p.components ↔
    x = p.alpha.re ∨ x = p.alpha.im ∨ x = p.beta.re ∨ x = p.beta.im := by
  simp [components]

theorem forall_components {P : Float → Prop} : (∀ x ∈ p.components, P x) ↔
    P p.alpha.re ∧ P p.alpha.im ∧ P p.beta.re ∧ P p.beta.im := by
  simp [components]

theorem hasNaN_iff : p.hasNaN = true ↔ ∃ x ∈ p.components, x.isNaN = true := List.any_eq_true

theorem hasNaN_eq_false : p.hasNaN = false ↔ ∀ x ∈ p.components, x.isNaN = false := by
  simp [hasNaN]

theorem isZero_iff : p.isZero = true ↔ ∀ x ∈ p.components, (x == 0) = true := List.all_eq_true

theorem sign_normSq (h : p.hasNaN = false) : sign p.normSq = some .positive := by
  obtain ⟨har, hai, hbr, hbi⟩ := forall_components.mp (hasNaN_eq_false.mp h)
  exact sign_add (sign_add (sign_add (sign_mul_self har) (sign_mul_self hai)) (sign_mul_self hbr))
    (sign_mul_self hbi)

theorem isNaN_normSq (h : p.hasNaN = true) : p.normSq.isNaN = true := by
  obtain ⟨x, hx, hnan⟩ := hasNaN_iff.mp h
  have hsquare := isNaN_mul_self hnan
  rcases mem_components.mp hx with rfl | rfl | rfl | rfl
  · exact isNaN_add_left (isNaN_add_left (isNaN_add_left hsquare))
  · exact isNaN_add_left (isNaN_add_left (isNaN_add_right hsquare))
  · exact isNaN_add_left (isNaN_add_right hsquare)
  · exact isNaN_add_right hsquare

theorem isFinite_of_normSq (h : p.normSq.isFinite = true) :
    ∀ x ∈ p.components, x.isFinite = true := by
  obtain ⟨h, hbi⟩ := isFinite_add h
  obtain ⟨h, hbr⟩ := isFinite_add h
  obtain ⟨har, hai⟩ := isFinite_add h
  exact forall_components.mpr ⟨(isFinite_mul har).1, (isFinite_mul hai).1, (isFinite_mul hbr).1,
    (isFinite_mul hbi).1⟩

theorem isNull_normSq (h : ∀ x ∈ p.components, IsNull x) : IsNull p.normSq := by
  obtain ⟨har, hai, hbr, hbi⟩ := forall_components.mp h
  exact ((har.mul_left.add hai.mul_left).add hbr.mul_left).add hbi.mul_left

theorem not_lt_distance_of_isNaN {x tolerance : Float} (h : x.isNaN = true) :
    ¬tolerance < (x - 1).abs := by
  refine not_lt_of_isNaN ?_
  rw [isNaN_abs]
  exact isNaN_sub_left h

/-- Zero is far from one, whichever of the two tolerances counts. -/
theorem lt_distance_of_zero {x tolerance : Float} (htolerance : tolerance < 1)
    (h : (x == 0) = true) : tolerance < (x - 1).abs := by
  have hdistance : (x - 1).abs = 1 := by
    rcases eq_zero_of_beq h with rfl | rfl
    · rfl
    · rfl
  rwa [hdistance]

/-- The check fails just where the norm has a value, and that is not near one. -/
theorem tolerance_lt_iff : Numeric.unitaryTolerance < (p.normSq - 1).abs ↔
    (p.hasNaN || p.isNearUnit) = false := by
  cases hnan : p.hasNaN with
  | true => simp [not_lt_distance_of_isNaN (isNaN_normSq hnan)]
  | false =>
    have hsign := sign_normSq hnan
    cases hfinite : p.normSq.isFinite with
    | false =>
      have hfar : Numeric.unitaryTolerance < ((1 / 0 : Float) - 1).abs := by decide
      rw [eq_infinity hsign hfinite]
      simp [isNearUnit, hfinite, hfar]
    | true =>
      have hdistance : (p.normSq - 1).abs.isNaN = false := by
        rw [isNaN_abs]
        exact isNaN_sub hfinite (by decide)
      rw [lt_iff_not_le (by decide) hdistance, isNearUnit, hfinite]
      simp

theorem hasNaN_of_isZero (h : p.isZero = true) : p.hasNaN = false := by
  refine hasNaN_eq_false.mpr fun x hx => ?_
  obtain ⟨s, hs⟩ := beq_zero_iff.mp (isZero_iff.mp h x hx)
  rw [isNaN_eq, sign, hs]
  rfl

theorem isNull_of_isZero (h : p.isZero = true) : ∀ x ∈ p.components, IsNull x :=
  fun x hx => isNull_iff.mpr (.inr (isZero_iff.mp h x hx))

theorem beq_zero_normSq (h : p.isZero = true) : (p.normSq == 0) = true :=
  (isNull_normSq (isNull_of_isZero h)).beq_zero
    (isNaN_eq_false (sign_normSq (hasNaN_of_isZero h)))

theorem notUnitary?_eq {phase : Float} :
    (SingleGate.general p.alpha.re p.alpha.im p.beta.re p.beta.im phase).notUnitary? =
      if p.hasNaN || p.isNearUnit then none
      else some ⟨p.alpha.re, p.alpha.im, p.beta.re, p.beta.im, p.normSq⟩ := by
  have hzero : (p.alpha.re == 0 && p.alpha.im == 0 && p.beta.re == 0 && p.beta.im == 0) =
      p.isZero := by
    simp [isZero, components, Bool.and_assoc]
  have hcheck : (p.isZero || decide (Numeric.unitaryTolerance < (p.normSq - 1).abs)) =
      !(p.hasNaN || p.isNearUnit) := by
    cases h : p.isZero with
    | true =>
      have htolerance : (Numeric.unitaryTolerance : Float) < 1 := by decide
      have hfar := lt_distance_of_zero htolerance (beq_zero_normSq h)
      rw [Bool.true_or, tolerance_lt_iff.mp hfar, Bool.not_false]
    | false =>
      rw [Bool.false_or, Bool.eq_iff_iff, decide_eq_true_iff, tolerance_lt_iff, Bool.not_eq_true']
  rw [← hzero] at hcheck
  refine (if_congr (Bool.eq_iff_iff.mp hcheck) rfl rfl).trans ?_
  cases p.hasNaN || p.isNearUnit <;> rfl

/-- A gate passes the check when a component has no value, and otherwise when its norm is near
one. -/
theorem evaluate_toGate {phase : Float} (h : p.phase = number phase) : p.toGate.evaluate =
    if p.hasNaN || p.isNearUnit then
      .ok (SingleGate.general p.alpha.re p.alpha.im p.beta.re p.beta.im phase).matrix
    else .error (.notUnitary ⟨p.alpha.re, p.alpha.im, p.beta.re, p.beta.im, p.normSq⟩) := by
  have htraverse : p.toGate.traverse Scalar.toNumber =
      .ok (.general p.alpha.re p.alpha.im p.beta.re p.beta.im phase) := by
    rw [toGate, toParts, h]
    rfl
  rw [SingleGate.evaluate, htraverse]
  change (Except.mapError Failure.notUnitary (SingleGate.unitary _) : Except (Failure Float) _) = _
  rw [SingleGate.unitary, notUnitary?_eq]
  cases p.hasNaN || p.isNearUnit <;> rfl

theorem evaluate_toGate_symbol {e : String} (h : p.phase = symbol e) :
    p.toGate.evaluate = .error (.expression (.symbolic e)) := by
  rw [toGate, toParts, h]
  rfl

theorem isNearUnit_or_hasNaN {U : Matrix2 (Amplitude Float)} (h : p.toGate.evaluate = .ok U) :
    p.isNearUnit = true ∨ p.hasNaN = true := by
  cases hphase : p.phase with
  | symbol e =>
    rw [evaluate_toGate_symbol hphase] at h
    cases h
  | number phase =>
    rw [evaluate_toGate hphase] at h
    split at h
    · rename_i hpass
      exact (Bool.or_eq_true _ _ ▸ hpass).symm
    · cases h

theorem sign_norm (h : p.hasNaN = false) : sign p.norm = some .positive :=
  sign_sqrt (sign_normSq h)

theorem isNaN_norm (h : p.hasNaN = true) : p.norm.isNaN = true := isNaN_sqrt (isNaN_normSq h)

theorem isFinite_iff : p.isFinite = true ↔ ∀ x ∈ p.components, x.isFinite = true :=
  List.all_eq_true

theorem isFinite_eq_false :
    p.isFinite = false ↔ ∃ x ∈ p.components, x.isFinite = false := by
  simp [isFinite]

theorem isFinite_of_norm (h : p.norm.isFinite = true) : p.isFinite = true :=
  isFinite_iff.mpr (isFinite_of_normSq (isFinite_sqrt h))

theorem hasNaN_divBy {x : Float} :
    (p.divBy x).hasNaN = true ↔ ∃ y ∈ p.components, (y / x).isNaN = true := by
  have hcomponents : (p.divBy x).components = p.components.map (· / x) := rfl
  rw [hasNaN_iff, hcomponents]
  simp only [List.mem_map, exists_exists_and_eq_and]

theorem hasNaN_of_isFinite (h : p.isFinite = true) : p.hasNaN = false :=
  hasNaN_eq_false.mpr fun x hx => isNaN_of_isFinite (isFinite_iff.mp h x hx)

/-- A norm without a value is not far from one, and nothing is divided by it. -/
theorem normalized_of_hasNaN (h : p.hasNaN = true) : p.normalized = p :=
  if_neg (not_lt_distance_of_isNaN (isNaN_norm h))

/-- An infinite component makes the norm infinite, and is divided by it. -/
theorem hasNaN_normalized_of_infinite (hnan : p.hasNaN = false) (hfinite : p.isFinite = false) :
    p.normalized.hasNaN = true := by
  have hnorm : p.norm.isFinite = false := by
    refine Bool.eq_false_iff.mpr fun h => ?_
    exact Bool.noConfusion (hfinite.symm.trans (isFinite_of_norm h))
  have hfar : Numeric.epsilon < (p.norm - 1).abs := by
    rw [eq_infinity (sign_norm hnan) hnorm]
    decide
  obtain ⟨x, hx, hinfinite⟩ := isFinite_eq_false.mp hfinite
  rw [normalized, if_pos hfar, hasNaN_divBy]
  exact ⟨x, hx, isNaN_div_of_not_isFinite hinfinite hnorm⟩

theorem hasNaN_normalized_of_isFinite (h : p.isFinite = true) : p.normalized.hasNaN = true ↔
    (p.norm == 0) = true ∧ ∃ x ∈ p.components, (x == 0) = true := by
  have hnan := hasNaN_of_isFinite h
  have hquotient : ∀ x ∈ p.components, (x / p.norm).isNaN = (x == 0 && p.norm == 0) :=
    fun x hx => isNaN_div (isFinite_iff.mp h x hx) (isNaN_eq_false (sign_norm hnan))
  rw [normalized]
  split
  · rw [hasNaN_divBy]
    constructor
    · rintro ⟨x, hx, hxnan⟩
      rw [hquotient x hx, Bool.and_eq_true] at hxnan
      exact ⟨hxnan.2, x, hx, hxnan.1⟩
    · rintro ⟨hnorm, x, hx, hzero⟩
      refine ⟨x, hx, ?_⟩
      rw [hquotient x hx, hzero, hnorm, Bool.and_self]
  · rename_i hnear
    have hnorm : ¬(p.norm == 0) = true := fun h => hnear (lt_distance_of_zero (by decide) h)
    simp only [hnan, hnorm, Bool.false_eq_true, false_and]

/-- Normalized parts have a component without a value when one was not finite before, or when the
norm is zero and a component is, too. -/
theorem hasNaN_normalized : p.normalized.hasNaN = true ↔
    p.isFinite = false ∨ ((p.norm == 0) = true ∧ ∃ x ∈ p.components, (x == 0) = true) := by
  cases hfinite : p.isFinite with
  | true =>
    rw [hasNaN_normalized_of_isFinite hfinite]
    simp only [Bool.true_eq_false, false_or]
  | false =>
    refine iff_of_true ?_ (.inl rfl)
    cases hnan : p.hasNaN with
    | true => rw [normalized_of_hasNaN hnan, hnan]
    | false => exact hasNaN_normalized_of_infinite hnan hfinite

end DoubleParts

namespace Amplitude

variable {z w : Amplitude Float}

/-- Both parts are zero or without a value. -/
def IsNull (z : Amplitude Float) : Prop := Double.IsNull z.re ∧ Double.IsNull z.im

theorem IsNull.conj (h : z.IsNull) : z.conj.IsNull := ⟨h.1, h.2.neg⟩

theorem IsNull.times_left (h : z.IsNull) : (z.times w).IsNull :=
  ⟨h.1.mul_left.sub h.2.mul_left, h.1.mul_left.add h.2.mul_left⟩

theorem IsNull.times_right (h : w.IsNull) : (z.times w).IsNull :=
  ⟨h.1.mul_right.sub h.2.mul_right, h.2.mul_right.add h.1.mul_right⟩

end Amplitude

namespace DoubleParts

variable {p q : DoubleParts}

theorem isNull_product (h : p.isZero = true ∨ q.isZero = true) :
    ∀ x ∈ (p.product q).components, IsNull x := by
  have hparts : ∀ {r : DoubleParts}, r.isZero = true → r.alpha.IsNull ∧ r.beta.IsNull := by
    intro r hr
    obtain ⟨har, hai, hbr, hbi⟩ := forall_components.mp (isNull_of_isZero hr)
    exact ⟨⟨har, hai⟩, hbr, hbi⟩
  have hsums (hz : (p.alpha.times q.alpha).IsNull) (hw : (p.beta.conj.times q.beta).IsNull)
      (hu : (p.beta.times q.alpha).IsNull) (hv : (q.beta.times p.alpha.conj).IsNull) :
      ∀ x ∈ (p.product q).components, IsNull x :=
    forall_components.mpr ⟨hz.1.sub hw.1, hz.2.sub hw.2, hu.1.add hv.1, hu.2.add hv.2⟩
  rcases h with h | h
  · obtain ⟨halpha, hbeta⟩ := hparts h
    exact hsums halpha.times_left hbeta.conj.times_left hbeta.times_left halpha.conj.times_right
  · obtain ⟨halpha, hbeta⟩ := hparts h
    exact hsums halpha.times_right hbeta.times_right halpha.times_right hbeta.times_left

/-- A product with a factor that is zero has no value. -/
theorem hasNaN_product (h : p.isZero = true ∨ q.isZero = true) :
    (p.product q).normalized.hasNaN = true := by
  have hnull := isNull_product h
  refine hasNaN_normalized.mpr ?_
  cases hfinite : (p.product q).isFinite with
  | false => exact .inl rfl
  | true =>
    have hnorm : ((p.product q).norm == 0) = true :=
      (isNull_normSq hnull).sqrt.beq_zero
        (isNaN_eq_false (sign_norm (hasNaN_of_isFinite hfinite)))
    have hvalue := isNaN_of_isFinite (isFinite_iff.mp hfinite _ List.mem_cons_self)
    exact .inr ⟨hnorm, _, List.mem_cons_self, (hnull _ List.mem_cons_self).beq_zero hvalue⟩

end DoubleParts

open Operation (record)

/-- A gate with doubles for components has a matrix when its norm is near one, but also whenever a
component has no value. Otherwise it is refused with its components and its norm. The product of
two such gates has a component without a value just when one was not finite before the division by
the norm, or one and the norm were zero, and always if all components of a factor are zero. -/
theorem SingleGate.evaluate_doubles (p q : DoubleParts) :
    (∀ phase : Float, p.phase = number phase → p.toGate.evaluate =
      if p.hasNaN || p.isNearUnit then
        .ok (SingleGate.general p.alpha.re p.alpha.im p.beta.re p.beta.im phase).matrix
      else .error (.notUnitary ⟨p.alpha.re, p.alpha.im, p.beta.re, p.beta.im, p.normSq⟩)) ∧
    (∀ e : String, p.phase = symbol e →
      p.toGate.evaluate = .error (.expression (.symbolic e))) ∧
    ∀ (g h : SingleGate (Scalar Float)) (qubit : Nat),
      g.parts = p.toParts → h.parts = q.toParts →
      ∃ r : DoubleParts, r.phase = p.phase + q.phase ∧
        (record (.singleQubit g qubit)).mul (record (.singleQubit h qubit)) =
          .ok (record (.singleQubit r.toGate qubit)) ∧
        (∀ U, r.toGate.evaluate = .ok U → r.isNearUnit = true ∨ r.hasNaN = true) ∧
        (r.hasNaN = true ↔ (p.product q).isFinite = false ∨
          (((p.product q).norm == 0) = true ∧
            ∃ x ∈ (p.product q).components, (x == 0) = true)) ∧
        (p.isZero = true ∨ q.isZero = true → r.hasNaN = true) := by
  refine ⟨fun phase => DoubleParts.evaluate_toGate,
    fun e => DoubleParts.evaluate_toGate_symbol, ?_⟩
  intro g h qubit hg hh
  refine ⟨(p.product q).normalized, DoubleParts.phase_normalized, ?_, ?_,
    DoubleParts.hasNaN_normalized, DoubleParts.hasNaN_product⟩
  · rw [Operation.mul_sameQubit, DoubleParts.mul_eq_toGate hg hh]
  · intro U hU
    exact DoubleParts.isNearUnit_or_hasNaN hU

/-- The identity has a matrix, and twice the identity is refused with its norm. The product of a
flip and the identity has no component without a value, and that of a flip and nothing has one. -/
theorem SingleGate.evaluate_doubles_pauliX :
    let scaled (x : Float) : DoubleParts := ⟨⟨x, 0⟩, ⟨0, 0⟩, number 0⟩
    (∃ U, (scaled 1).toGate.evaluate = .ok U) ∧
    (scaled 2).toGate.evaluate = .error (.notUnitary ⟨2, 0, 0, 0, (scaled 2).normSq⟩) ∧
    (DoubleParts.toGate ⟨⟨1, 0⟩, ⟨0, 0⟩, symbol "phi"⟩).evaluate =
      .error (.expression (.symbolic "phi")) ∧
    (∃ r : DoubleParts, (record (.singleQubit .pauliX 0)).mul
        (record (.singleQubit (scaled 1).toGate 0)) = .ok (record (.singleQubit r.toGate 0)) ∧
      ∀ U, r.toGate.evaluate = .ok U → r.isNearUnit = true) ∧
    ∃ r : DoubleParts, (record (.singleQubit .pauliX 0)).mul
        (record (.singleQubit (scaled 0).toGate 0)) = .ok (record (.singleQubit r.toGate 0)) ∧
      r.hasNaN = true := by
  intro scaled
  let flip : DoubleParts := ⟨⟨0, 0⟩, ⟨0, -1⟩, number (Numeric.pi / 2)⟩
  have hunit : ((scaled 1).hasNaN || (scaled 1).isNearUnit) = true := by decide +kernel
  have hdouble : ((scaled 2).hasNaN || (scaled 2).isNearUnit) = false := by decide +kernel
  have hfinite : (flip.product (scaled 1)).isFinite = true := by decide +kernel
  have hnorm : ((flip.product (scaled 1)).norm == 0) = false := by decide +kernel
  have hzero : (scaled 0).isZero = true := by decide +kernel
  obtain ⟨hone, -, -⟩ := evaluate_doubles (scaled 1) (scaled 1)
  obtain ⟨htwo, -, -⟩ := evaluate_doubles (scaled 2) (scaled 1)
  obtain ⟨-, hsymbol, -⟩ := evaluate_doubles ⟨⟨1, 0⟩, ⟨0, 0⟩, symbol "phi"⟩ (scaled 1)
  obtain ⟨-, -, hmul⟩ := evaluate_doubles flip (scaled 1)
  obtain ⟨-, -, hnothing⟩ := evaluate_doubles flip (scaled 0)
  refine ⟨⟨_, (hone 0 rfl).trans (if_pos hunit)⟩, ?_, hsymbol "phi" rfl, ?_, ?_⟩
  · rw [htwo 0 rfl, hdouble]
    rfl
  · obtain ⟨r, -, hr, hpass, hnan, -⟩ := hmul .pauliX (scaled 1).toGate 0 rfl rfl
    refine ⟨r, hr, fun U hU => (hpass U hU).resolve_right fun h => ?_⟩
    rcases hnan.mp h with hinfinite | ⟨hnull, -⟩
    · exact Bool.noConfusion (hinfinite.symm.trans hfinite)
    · exact Bool.noConfusion (hnull.symm.trans hnorm)
  · obtain ⟨r, -, hr, -, -, hnull⟩ := hnothing .pauliX (scaled 0).toGate 0 rfl rfl
    exact ⟨r, hr, hnull (.inr hzero)⟩

/-- A gate that is nothing times the identity has a matrix, although its norm has no value. -/
theorem SingleGate.evaluate_zero_product :
    let scaled (x : Float) : DoubleParts := ⟨⟨x, 0⟩, ⟨0, 0⟩, number 0⟩
    ∃ r : DoubleParts, (scaled 0).isZero = true ∧
      (record (.singleQubit (scaled 0).toGate 0)).mul (record (.singleQubit (scaled 1).toGate 0)) =
        .ok (record (.singleQubit r.toGate 0)) ∧
      (∃ U, r.toGate.evaluate = .ok U) ∧ r.normSq.isFinite = false ∧ r.isNearUnit = false := by
  intro scaled
  have hzero : (scaled 0).isZero = true := by decide +kernel
  have hnan := DoubleParts.hasNaN_product (q := scaled 1) (.inl hzero)
  have hnorm : ((scaled 0).product (scaled 1)).normalized.normSq.isFinite = false := by
    refine Bool.eq_false_iff.mpr fun h => ?_
    exact Bool.noConfusion ((isNaN_of_isFinite h).symm.trans (DoubleParts.isNaN_normSq hnan))
  have hphase : ((scaled 0).product (scaled 1)).normalized.phase = number (0 + 0) :=
    DoubleParts.phase_normalized
  have hmatrix := DoubleParts.evaluate_toGate hphase
  rw [hnan, Bool.true_or, if_pos rfl] at hmatrix
  refine ⟨_, hzero, ?_, ⟨_, hmatrix⟩, hnorm, ?_⟩
  · rw [Operation.mul_sameQubit, DoubleParts.mul_eq_toGate rfl rfl]
  · rw [DoubleParts.isNearUnit, hnorm, Bool.false_and]

end QuantumOps
