import QuantumOps.Proofs.Numeric.Format
import QuantumOps.Proofs.Numeric.Neutral
import QuantumOps.Proofs.Scalar.Laws

/-! Doubles have the properties that the arithmetic of scalars relies on. For their sums, products,
quotients, square roots and texts that is proved from how they are stored and rounded; powers, sines
and cosines are those of the machine, and of them a few values are assumed. -/
namespace QuantumOps.Double

/-- What is assumed of a power, a sine and a cosine, at one, at zero and where an argument is no
finite number. -/
structure SpecialValues (pow : Float → Float → Float) (sin cos : Float → Float) : Prop where
  pow_one {x : Float} (h : x.isFinite = true) : (x == pow x 1) = true
  sin_zero {x : Float} (h : (x == 0) = true) : (sin x == 0) = true
  cos_zero {x : Float} (h : (x == 0) = true) : (cos x == 1) = true
  sin_infinite {x : Float} (h : x.isFinite = false) : (sin x).isNaN = true
  cos_infinite {x : Float} (h : x.isFinite = false) : (cos x).isNaN = true

/-- The assumptions do not exclude each other. -/
theorem exists_specialValues : ∃ pow sin cos, SpecialValues pow sin cos := by
  let only (x : Float) (y : Float) : Float := if x.isFinite then y else 0 / 0
  have hfinite : ∀ {x y : Float}, x.isFinite = true → only x y = y := fun h => if_pos h
  have hinfinite : ∀ {x y : Float}, x.isFinite = false → (only x y).isNaN = true := by
    intro x y h
    simp only [only, h, Bool.false_eq_true, if_false]
    rfl
  refine ⟨fun x _ => x, fun x => only x x, fun x => only x 1, beq_self, fun h => ?_, fun h => ?_,
    hinfinite, hinfinite⟩
  · rw [hfinite (isFinite_of_beq_zero h)]
    exact h
  · rw [hfinite (isFinite_of_beq_zero h)]
    rfl

section
variable {x x' y y' z : Float}

theorem isFinite_of_beq (h : (x == y) = true) (hy : y.isFinite = true) : x.isFinite = true := by
  rcases beq_iff.mp h with ⟨-, rfl⟩ | ⟨hx, -⟩
  · exact hy
  · exact isFinite_of_beq_zero hx

theorem isFinite_neg (x : Float) : (-x).isFinite = x.isFinite := by
  have hneg : (-x).isFinite = (shape (-x)).isFinite := rfl
  have hshape : x.isFinite = (shape x).isFinite := rfl
  rw [hneg, hshape, shape_neg]
  cases shape x <;> rfl

/-- The text of a finite double is a numeral that reads back, after a minus sign if need be. -/
theorem format_reads (h : x.isFinite = true) :
    (IsNumeral (Numeric.format x) ∧ Numeric.ofNumeral (Numeric.format x) = x) ∨
    ∃ s, Numeric.format x = "-" ++ s ∧ IsNumeral s ∧ -(Numeric.ofNumeral s) = x := by
  obtain ⟨n, hformat, -, hvalue⟩ := format_of_isFinite h
  have hnumeral : IsNumeral (String.ofList n.chars) := isNumeral_of_isNumber (.inl n.isWhole_chars)
  cases hsign : signBit x with
  | false =>
    rw [hsign, Decimal.signed, if_neg Bool.false_ne_true] at hformat
    rw [hsign, if_neg Bool.false_ne_true] at hvalue
    exact .inl ⟨hformat ▸ hnumeral, hformat ▸ hvalue⟩
  | true =>
    rw [hsign, Decimal.signed, if_pos rfl] at hformat
    rw [hsign, if_pos rfl] at hvalue
    exact .inr ⟨String.ofList n.chars, by simp [hformat], hnumeral, hvalue⟩

/-- Doubles are lawful numbers. Of the machine's functions only the power matters here. -/
theorem lawfulNumeric (h : SpecialValues Float.pow Float.sin Float.cos) :
    LawfulNumeric Float where
  beq_self := beq_self
  finite_of_beq := isFinite_of_beq
  zero_add := Double.zero_add
  add_zero hv hz := Double.add_comm _ _ ▸ Double.zero_add hv hz
  sub_zero {v z} hv hz := by
    rw [Double.sub_eq_add_neg, Double.add_comm]
    exact Double.zero_add hv (neg_beq_zero hz)
  zero_sub {v z} hv hz := by
    rw [Double.sub_eq_add_neg]
    exact Double.zero_add ((isFinite_neg _).trans hv) hz
  zero_mul hv hz := BEq.symm (zero_mul_beq_zero hv hz)
  mul_zero hv hz := Double.mul_comm _ _ ▸ BEq.symm (zero_mul_beq_zero hv hz)
  one_mul hv ho := by
    rw [eq_one_of_beq ho, Double.one_mul]
    exact beq_self hv
  mul_one hv ho := by
    rw [eq_one_of_beq ho, Double.mul_comm, Double.one_mul]
    exact beq_self hv
  zero_div hv hne hz := BEq.symm (zero_div_beq_zero hz (isNaN_of_isFinite hv) hne)
  div_one hv ho := by
    rw [eq_one_of_beq ho, Double.div_one]
    exact beq_self hv
  pow_one hv ho := by
    rw [eq_one_of_beq ho]
    exact h.pow_one hv
  format_reads := format_reads

/-- A function that takes equal zeros to equal numbers respects equality where it is finite. -/
theorem congr_of_zeros (f : Float → Float) (h : (x == y) = true) (hr : (f y).isFinite = true)
    (hzero : (x == 0) = true → (y == 0) = true → (f x == f y) = true) : (f x == f y) = true := by
  rcases beq_iff.mp h with ⟨-, rfl⟩ | ⟨hx, hy⟩
  · exact beq_self hr
  · exact hzero hx hy

/-- A commutative operation that respects equality on one side respects it on both. -/
theorem congr_of_comm {f : Float → Float → Float} (hcomm : ∀ x y, f x y = f y x)
    (hleft : ∀ {x x' y : Float}, (x == x') = true → (f x' y).isFinite = true →
      (f x y == f x' y) = true)
    (hx : (x == x') = true) (hy : (y == y') = true) (hr : (f x' y').isFinite = true) :
    (f x y == f x' y') = true := by
  have hright : (f x' y == f x' y') = true := by
    rw [hcomm] at hr
    rw [hcomm x' y, hcomm x' y']
    exact hleft hy hr
  exact BEq.trans (hleft hx (isFinite_of_beq hright hr)) hright

theorem add_congr_left (h : (x == x') = true) (hr : (x' + y).isFinite = true) :
    (x + y == x' + y) = true := by
  have hy := (isFinite_add hr).2
  exact congr_of_zeros (· + y) h hr fun hx hx' =>
    BEq.trans (BEq.symm (Double.zero_add hy hx)) (Double.zero_add hy hx')

theorem mul_congr_left (h : (x == x') = true) (hr : (x' * y).isFinite = true) :
    (x * y == x' * y) = true := by
  have hy := (isFinite_mul hr).2
  exact congr_of_zeros (· * y) h hr fun hx hx' =>
    beq_of_beq_zero (zero_mul_beq_zero hy hx) (zero_mul_beq_zero hy hx')

theorem neg_congr (h : (x == y) = true) (hr : (-y).isFinite = true) : (-x == -y) = true :=
  congr_of_zeros (- ·) h hr fun hx hy => beq_of_beq_zero (neg_beq_zero hx) (neg_beq_zero hy)

theorem isNaN_div_right (h : y.isNaN = true) : (x / y).isNaN = true := by
  refine isNaN_of_shape ?_
  rw [shape_div, shape_of_isNaN h]
  cases shape x <;> exact stored_notANumber

/-- Zero has a finite quotient only by what is neither zero nor without a value. -/
theorem divisor_of_isFinite (hx : (x == 0) = true) (hr : (x / y).isFinite = true) :
    y.isNaN = false ∧ (y == 0) = false := by
  have hvalue := isNaN_of_isFinite hr
  have hy : y.isNaN = false := by
    rw [Bool.eq_false_iff]
    intro hy
    rw [isNaN_div_right hy] at hvalue
    cases hvalue
  rw [isNaN_div (isFinite_of_beq_zero hx) hy, hx, Bool.true_and] at hvalue
  exact ⟨hy, hvalue⟩

theorem div_congr (h : (x == x') = true) (hr : (x' / y).isFinite = true) :
    (x / y == x' / y) = true := by
  refine congr_of_zeros (· / y) h hr fun hx hx' => ?_
  obtain ⟨hy, hne⟩ := divisor_of_isFinite hx' hr
  exact beq_of_beq_zero (zero_div_beq_zero hx hy hne) (zero_div_beq_zero hx' hy hne)

theorem sqrt_beq_zero (h : (x == 0) = true) : (x.sqrt == 0) = true := by
  rcases eq_zero_of_beq h with rfl | rfl <;> rfl

theorem isFinite_of_apply {f : Float → Float}
    (h : ∀ {x : Float}, x.isFinite = false → (f x).isNaN = true) (hr : (f x).isFinite = true) :
    x.isFinite = true := by
  have hvalue := isNaN_of_isFinite hr
  rw [← Bool.not_eq_false]
  intro hx
  rw [h hx] at hvalue
  cases hvalue

/-- Doubles are regular numbers. -/
theorem regularNumeric (h : SpecialValues Float.pow Float.sin Float.cos) :
    RegularNumeric Float where
  toLawfulNumeric := lawfulNumeric h
  toPartialEquivBEq := partialEquivBEq
  add_congr := congr_of_comm Double.add_comm add_congr_left
  sub_congr {v v' w w'} hv hw hr := by
    rw [Double.sub_eq_add_neg] at hr ⊢
    rw [Double.sub_eq_add_neg]
    exact congr_of_comm Double.add_comm add_congr_left hv (neg_congr hw (isFinite_add hr).2) hr
  mul_congr := congr_of_comm Double.mul_comm mul_congr_left
  div_congr := div_congr
  neg_congr := neg_congr
  sin_congr hv hr := congr_of_zeros Float.sin hv hr fun hx hy =>
    beq_of_beq_zero (h.sin_zero hx) (h.sin_zero hy)
  cos_congr hv hr := congr_of_zeros Float.cos hv hr fun hx hy =>
    BEq.trans (h.cos_zero hx) (BEq.symm (h.cos_zero hy))
  sqrt_congr hv hr := congr_of_zeros Float.sqrt hv hr fun hx hy =>
    beq_of_beq_zero (sqrt_beq_zero hx) (sqrt_beq_zero hy)
  finite_add := isFinite_add
  finite_sub {v w} hr := by
    rw [Double.sub_eq_add_neg] at hr
    obtain ⟨hv, hw⟩ := isFinite_add hr
    exact ⟨hv, (isFinite_neg w).symm.trans hw⟩
  finite_mul := isFinite_mul
  finite_div := isFinite_div
  finite_neg hr := (isFinite_neg _).symm.trans hr
  finite_sin := isFinite_of_apply h.sin_infinite
  finite_cos := isFinite_of_apply h.cos_infinite
  finite_sqrt := isFinite_sqrt
  divisor hc := by
    simp only [List.mem_cons, List.not_mem_nil, or_false] at hc
    rcases hc with rfl | rfl | rfl | rfl <;> exact ⟨rfl, rfl, rfl⟩

end
end QuantumOps.Double
