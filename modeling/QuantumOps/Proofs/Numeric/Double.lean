import Mathlib
import QuantumOps.Numeric.Float

/-! The special values of doubles: signs, zeros, infinities and results without a value, and which
of them arithmetic gives. Only the cases of the operations are needed for that, and not how they
round, for rounding changes neither the sign of a number nor gives a result without a value. -/
namespace QuantumOps.Double

open Float.Model (UnpackedFloat Format)
open Float.Model.UnpackedFloat (Sign)

/-- The sign of a double. A result without a value has none. -/
def signOf : UnpackedFloat → Option Sign
  | .notANumber => none
  | .infinity s | .zero s | .finite s .. => some s

/-- What becomes of a result when it is stored as a double. -/
def stored (u : UnpackedFloat) : UnpackedFloat :=
  UnpackedFloat.unpack .binary64 (UnpackedFloat.pack .binary64 u)

@[simp] theorem stored_notANumber : stored .notANumber = .notANumber :=
  UnpackedFloat.unpack_packedNaN

@[simp] theorem stored_zero (s : Sign) : stored (.zero s) = .zero s :=
  UnpackedFloat.unpack_packedZero

@[simp] theorem stored_infinity (s : Sign) : stored (.infinity s) = .infinity s := by
  cases s <;> rfl

/-- Nothing is lost when what was read is stored again. -/
theorem stored_unpack (b : BitVec 64) :
    stored (UnpackedFloat.unpack .binary64 b) = UnpackedFloat.unpack .binary64 b := by
  rw [stored, UnpackedFloat.pack_unpack]
  split
  · rename_i hnan
    obtain ⟨hexponent, hmantissa⟩ := of_decide_eq_true hnan
    rw [UnpackedFloat.unpack_packedNaN, UnpackedFloat.unpack]
    simp only [if_pos hexponent, if_neg hmantissa]
  · rfl

theorem ofNat_ne_neg_one {b : Nat} (h : ¬2 ^ 11 ≤ b + 1) : BitVec.ofNat 11 b ≠ -1#11 := by
  intro heq
  have hnat : b % 2 ^ 11 = 2 ^ 11 - 1 := congrArg BitVec.toNat heq
  omega

theorem signOf_unpack_packComponents (s : Sign) {e : BitVec 11} (m : BitVec 52)
    (he : e ≠ -1#11) : signOf (UnpackedFloat.unpack .binary64
      (UnpackedFloat.packComponents .binary64 s e m)) = some s := by
  unfold UnpackedFloat.unpack
  simp only [UnpackedFloat.unpackExponent_packComponents,
    UnpackedFloat.unpackMantissa_packComponents, UnpackedFloat.unpackSign_packComponents,
    Sign.ofBitVec_toBitVec]
  rw [if_neg he]
  split
  · split <;> rfl
  · rfl

/-- Storing a result may make it infinite or zero, but keeps its sign. -/
@[simp] theorem signOf_stored (u : UnpackedFloat) : signOf (stored u) = signOf u := by
  cases u with
  | notANumber => rw [stored_notANumber]
  | infinity s => rw [stored_infinity]
  | zero s => rw [stored_zero]
  | finite s m e hm =>
    rw [stored, UnpackedFloat.pack]
    dsimp only
    split
    · exact (congrArg signOf (stored_infinity s)).trans rfl
    · rename_i hexponent
      split
      · exact signOf_unpack_packComponents s _ (ofNat_ne_neg_one hexponent)
      · exact signOf_unpack_packComponents s _ (by decide)

theorem signOf_roundWithAccuracy {spec : Format} {s : Sign} {m : Nat} {e : Int}
    {accuracy : UnpackedFloat.Accuracy} :
    signOf (UnpackedFloat.roundWithAccuracy spec s m e accuracy) = some s := by
  rw [UnpackedFloat.roundWithAccuracy]
  dsimp only
  split <;> rfl

theorem signOf_normalize {spec : Format} {m e : Int} (h : 0 ≤ m) :
    signOf (UnpackedFloat.normalize spec m e .positive) = some .positive := by
  rw [UnpackedFloat.normalize]
  split
  · rename_i hlt
    have hneg : m < 0 := Int.compare_eq_lt.mp hlt
    omega
  · rfl
  · exact signOf_roundWithAccuracy

theorem isSome_signOf_normalize {spec : Format} {m e : Int} {s : Sign} :
    (signOf (UnpackedFloat.normalize spec m e s)).isSome := by
  rw [UnpackedFloat.normalize]
  split
  · rw [UnpackedFloat.round, signOf_roundWithAccuracy]
    rfl
  · rfl
  · rw [UnpackedFloat.round, signOf_roundWithAccuracy]
    rfl

section
variable {spec : Format} {u v : UnpackedFloat}

theorem signOf_mul_self : signOf (u.mul spec u) = (signOf u).map fun _ => .positive := by
  cases u with
  | notANumber => rfl
  | infinity s | zero s => cases s <;> rfl
  | finite s m e hm =>
    refine signOf_roundWithAccuracy.trans ?_
    cases s <;> rfl

theorem signOf_add (hu : signOf u = some .positive) (hv : signOf v = some .positive) :
    signOf (u.add spec v) = some .positive := by
  cases u with
  | notANumber => cases hu
  | infinity s =>
    cases hu
    cases v with
    | notANumber => cases hv
    | infinity t =>
      cases hv
      rfl
    | _ => rfl
  | zero s =>
    cases hu
    cases v with
    | notANumber => cases hv
    | infinity t | zero t =>
      cases hv
      rfl
    | finite t m' e' hm' => exact hv
  | finite s m e hm =>
    cases hu
    cases v with
    | notANumber => cases hv
    | infinity t => exact hv
    | zero t => rfl
    | finite t m' e' hm' =>
      cases hv
      exact signOf_normalize (Int.add_nonneg (Int.natCast_nonneg _) (Int.natCast_nonneg _))

theorem add_notANumber : u.add spec .notANumber = .notANumber := by cases u <;> rfl

theorem isSome_signOf_sub (hu : u.isFinite) (hv : v.isFinite) :
    (signOf (u.sub spec v)).isSome := by
  cases u with
  | notANumber | infinity s => cases hu
  | zero s =>
    cases v with
    | notANumber | infinity t => cases hv
    | zero t =>
      rw [UnpackedFloat.sub]
      split <;> rfl
    | finite t m' e' hm' => rfl
  | finite s m e hm =>
    cases v with
    | notANumber | infinity t => cases hv
    | zero t => rfl
    | finite t m' e' hm' => exact isSome_signOf_normalize

theorem signOf_sqrt (hu : signOf u = some .positive) :
    signOf (u.sqrt spec) = some .positive := by
  cases u with
  | notANumber => cases hu
  | infinity s | zero s =>
    cases hu
    rfl
  | finite s m e hm =>
    cases hu
    exact signOf_roundWithAccuracy

theorem isFinite_of_stored (h : (stored u).isFinite) : u.isFinite := by
  cases u with
  | notANumber =>
    rw [stored_notANumber] at h
    cases h
  | infinity s =>
    rw [stored_infinity] at h
    cases h
  | zero s | finite s m e hm => rfl

theorem isFinite_of_add (h : (u.add spec v).isFinite) : u.isFinite ∧ v.isFinite := by
  cases u with
  | notANumber => cases h
  | infinity s =>
    cases v with
    | infinity t =>
      rw [UnpackedFloat.add] at h
      split at h <;> cases h
    | _ => cases h
  | zero s | finite s m e hm =>
    cases v with
    | notANumber | infinity t => cases h
    | zero t | finite t m' e' hm' => exact ⟨rfl, rfl⟩

theorem isFinite_of_mul (h : (u.mul spec v).isFinite) : u.isFinite ∧ v.isFinite := by
  cases u with
  | notANumber => cases h
  | infinity s => cases v <;> cases h
  | zero s | finite s m e hm =>
    cases v with
    | notANumber | infinity t => cases h
    | zero t | finite t m' e' hm' => exact ⟨rfl, rfl⟩

theorem isFinite_of_div (h : (u.div spec v).isFinite) : u.isFinite := by
  cases u with
  | notANumber => cases h
  | infinity s => cases v <;> cases h
  | zero s | finite s m e hm => rfl

theorem isFinite_of_sqrt (h : (u.sqrt spec).isFinite) : u.isFinite := by
  cases u with
  | notANumber => cases h
  | infinity s => cases s <;> cases h
  | zero s | finite s m e hm => rfl

/-- A number divided by one that has a value has a value, unless both are zero. -/
theorem signOf_div_eq_none (hu : u.isFinite) (hv : (signOf v).isSome) :
    signOf (u.div spec v) = none ↔ (∃ s, u = .zero s) ∧ ∃ t, v = .zero t := by
  cases u with
  | notANumber | infinity s => cases hu
  | zero s =>
    cases v with
    | notANumber => cases hv
    | _ => simp [UnpackedFloat.div, signOf]
  | finite s m e hm =>
    cases v with
    | notANumber => cases hv
    | finite t m' e' hm' => simp [UnpackedFloat.div, signOf_roundWithAccuracy]
    | _ => simp [UnpackedFloat.div, signOf]

theorem div_eq_notANumber (hu : u.isFinite = false) (hv : v.isFinite = false) :
    u.div spec v = .notANumber := by
  cases u with
  | notANumber => rfl
  | infinity s =>
    cases v with
    | notANumber | infinity t => rfl
    | zero t | finite t m e hm => cases hv
  | zero s | finite s m e hm => cases hu

/-- What multiples of zero are: zero or without a value. -/
def isNull : UnpackedFloat → Bool
  | .notANumber | .zero _ => true
  | _ => false

theorem isNull_stored (hu : isNull u) : isNull (stored u) := by
  cases u with
  | notANumber => rw [stored_notANumber, isNull]
  | zero s => rw [stored_zero, isNull]
  | infinity s | finite s m e hm => cases hu

theorem isNull_mul_left (hu : isNull u) : isNull (u.mul spec v) := by
  cases u with
  | notANumber => rfl
  | zero s => cases v <;> rfl
  | infinity s | finite s m e hm => cases hu

theorem isNull_mul_right (hv : isNull v) : isNull (u.mul spec v) := by
  cases v with
  | notANumber | zero s => cases u <;> rfl
  | infinity s | finite s m e hm => cases hv

theorem isNull_add (hu : isNull u) (hv : isNull v) : isNull (u.add spec v) := by
  cases u with
  | notANumber => rfl
  | zero s =>
    cases v with
    | notANumber => rfl
    | zero t =>
      rw [UnpackedFloat.add]
      split <;> rfl
    | infinity t | finite t m e hm => cases hv
  | infinity s | finite s m e hm => cases hu

theorem isNull_neg (hu : isNull u) : isNull u.neg := by
  cases u with
  | notANumber | zero s => rfl
  | infinity s | finite s m e hm => cases hu

/-- A difference is the sum with the negated number, also where there is no value. -/
theorem unpacked_sub_eq_add_neg : u.sub spec v = u.add spec v.neg := by
  cases u with
  | notANumber => rfl
  | infinity s | zero s => cases v <;> rfl
  | finite s m e hm =>
    cases v with
    | finite t m' e' hm' =>
      have hsign : ∀ n : Int, (-t).apply n = -t.apply n := by
        intro n
        cases t with
        | positive => rfl
        | negative => exact (Int.neg_neg n).symm
      simp only [UnpackedFloat.sub, UnpackedFloat.neg, UnpackedFloat.add, hsign, Int.sub_eq_add_neg]
    | _ => rfl

theorem isNull_sub (hu : isNull u) (hv : isNull v) : isNull (u.sub spec v) := by
  rw [unpacked_sub_eq_add_neg]
  exact isNull_add hu (isNull_neg hv)

theorem isNull_sqrt (hu : isNull u) : isNull (u.sqrt spec) := by
  cases u with
  | notANumber | zero s => rfl
  | infinity s | finite s m e hm => cases hu

theorem compare_swap : v.compare u = (u.compare v).map Ordering.swap := by
  cases u with
  | notANumber => cases v <;> rfl
  | infinity s =>
    cases v with
    | infinity t => cases s <;> cases t <;> rfl
    | _ => cases s <;> rfl
  | zero s =>
    cases v with
    | finite t m e hm => cases t <;> rfl
    | infinity t => cases t <;> rfl
    | _ => rfl
  | finite s m e hm =>
    cases v with
    | finite t m' e' hm' =>
      cases s <;> cases t
      all_goals simp only [UnpackedFloat.compare, Option.map_some, Ordering.swap_then,
        Int.compare_swap, Nat.compare_swap, Ordering.swap_lt, Ordering.swap_gt]
    | zero t => cases s <;> rfl
    | infinity t => cases t <;> rfl
    | notANumber => rfl

theorem isSome_compare (hu : (signOf u).isSome) (hv : (signOf v).isSome) :
    (u.compare v).isSome := by
  fun_cases UnpackedFloat.compare u v
  case case1 => cases hu
  case case2 => cases hv
  all_goals rfl

/-- Of two doubles with a value, the first is less than the second unless that is at most it. -/
theorem lt_eq_not_le (hu : (signOf u).isSome) (hv : (signOf v).isSome) :
    u.lt v = !v.le u := by
  obtain ⟨o, ho⟩ := Option.isSome_iff_exists.mp (isSome_compare hu hv)
  have hswap : v.compare u = some o.swap := by
    rw [compare_swap, ho, Option.map_some]
  rw [UnpackedFloat.lt, UnpackedFloat.le, ho, hswap]
  cases o <;> rfl

end

/-- The number that a double stands for, or why it stands for none. -/
def shape (x : Float) : UnpackedFloat := x.toModel.unpack

theorem shape_inj {x y : Float} : shape x = shape y ↔ x = y := by
  rcases x with ⟨⟨⟨a⟩, ha⟩⟩
  rcases y with ⟨⟨⟨b⟩, hb⟩⟩
  refine (UnpackedFloat.unpack_inj_of_valid ha hb).trans ?_
  simp

section
variable {x y : Float}

theorem shape_add : shape (x + y) = stored (.add .binary64 (shape x) (shape y)) := rfl

theorem shape_sub : shape (x - y) = stored (.sub .binary64 (shape x) (shape y)) := rfl

theorem shape_mul : shape (x * y) = stored (.mul .binary64 (shape x) (shape y)) := rfl

theorem shape_div : shape (x / y) = stored (.div .binary64 (shape x) (shape y)) := rfl

theorem shape_sqrt : shape x.sqrt = stored (.sqrt .binary64 (shape x)) := rfl

theorem shape_abs : shape x.abs = stored (shape x).abs := rfl

theorem unpack_eq_neg {b b' : BitVec 64}
    (he : @UnpackedFloat.unpackExponent .binary64 b' = @UnpackedFloat.unpackExponent .binary64 b)
    (hm : @UnpackedFloat.unpackMantissa .binary64 b' = @UnpackedFloat.unpackMantissa .binary64 b)
    (hs : Sign.ofBitVec (@UnpackedFloat.unpackSign .binary64 b') =
      -Sign.ofBitVec (@UnpackedFloat.unpackSign .binary64 b)) :
    UnpackedFloat.unpack .binary64 b' = (UnpackedFloat.unpack .binary64 b).neg := by
  rw [UnpackedFloat.unpack, UnpackedFloat.unpack]
  simp only [he, hm, hs]
  split
  · split <;> rfl
  · split
    · split <;> rfl
    · rfl

theorem exists_unpack_neg (b : BitVec 64) : ∃ b' : BitVec 64,
    UnpackedFloat.unpack .binary64 b' = (UnpackedFloat.unpack .binary64 b).neg :=
  ⟨UnpackedFloat.packComponents .binary64 (-Sign.ofBitVec (@UnpackedFloat.unpackSign .binary64 b))
    (@UnpackedFloat.unpackExponent .binary64 b) (@UnpackedFloat.unpackMantissa .binary64 b),
    unpack_eq_neg UnpackedFloat.unpackExponent_packComponents
      UnpackedFloat.unpackMantissa_packComponents
      (by rw [UnpackedFloat.unpackSign_packComponents, Sign.ofBitVec_toBitVec])⟩

/-- Only the sign changes in a negation. -/
theorem shape_neg : shape (-x) = (shape x).neg := by
  obtain ⟨b, hb⟩ := exists_unpack_neg x.toBits.toBitVec
  have hneg : shape (-x) = stored (shape x).neg := rfl
  have hshape : shape x = UnpackedFloat.unpack .binary64 x.toBits.toBitVec := rfl
  rw [hneg, hshape, ← hb, stored_unpack]

/-- The sign of a double. Only a result without a value has none. -/
def sign (x : Float) : Option Sign := signOf (shape x)

theorem isNaN_eq : x.isNaN = (sign x).isNone := by
  have hshape : x.isNaN = (shape x).isNaN := rfl
  rw [hshape, sign]
  cases shape x <;> rfl

theorem isNaN_of_isFinite (h : x.isFinite = true) : x.isNaN = false := by
  have hshape : (shape x).isFinite = true := h
  rw [isNaN_eq, sign]
  cases hx : shape x with
  | notANumber | infinity s =>
    rw [hx] at hshape
    cases hshape
  | zero s | finite s m e hm => rfl

theorem beq_zero_iff : (x == 0) = true ↔ ∃ s, shape x = .zero s := by
  have hshape : (x == 0) = (shape x).beq (.zero .positive) := rfl
  rw [hshape, UnpackedFloat.beq_iff_ne_notANumber_and_eq]
  cases shape x with
  | zero s => cases s <;> simp
  | _ => simp

theorem eq_infinity (h : sign x = some .positive) (hx : x.isFinite = false) : x = 1 / 0 := by
  rw [← shape_inj]
  have hshape : (shape x).isFinite = false := hx
  rw [sign] at h
  cases hcase : shape x with
  | notANumber =>
    rw [hcase] at h
    cases h
  | infinity s =>
    rw [hcase] at h
    cases h
    rfl
  | zero s | finite s m e hm =>
    rw [hcase] at hshape
    cases hshape

theorem isNaN_eq_false (h : sign x = some .positive) : x.isNaN = false := by
  rw [isNaN_eq, h]
  rfl

theorem shape_of_isNaN (h : x.isNaN = true) : shape x = .notANumber :=
  UnpackedFloat.isNaN_iff.mp h

theorem isNaN_of_shape (h : shape x = .notANumber) : x.isNaN = true :=
  UnpackedFloat.isNaN_iff.mpr h

theorem sign_mul_self (h : x.isNaN = false) : sign (x * x) = some .positive := by
  rw [isNaN_eq, Option.isNone_eq_false_iff, Option.isSome_iff_exists] at h
  obtain ⟨s, hs⟩ := h
  rw [sign] at hs
  rw [sign, shape_mul, signOf_stored, signOf_mul_self, hs]
  rfl

theorem isNaN_mul_self (h : x.isNaN = true) : (x * x).isNaN = true := by
  refine isNaN_of_shape ?_
  rw [shape_mul, shape_of_isNaN h]
  exact stored_notANumber

theorem sign_add (hx : sign x = some .positive) (hy : sign y = some .positive) :
    sign (x + y) = some .positive :=
  (signOf_stored _).trans (signOf_add hx hy)

theorem isNaN_add_left (h : x.isNaN = true) : (x + y).isNaN = true := by
  refine isNaN_of_shape ?_
  rw [shape_add, shape_of_isNaN h]
  exact stored_notANumber

theorem isNaN_add_right (h : y.isNaN = true) : (x + y).isNaN = true := by
  refine isNaN_of_shape ?_
  rw [shape_add, shape_of_isNaN h, add_notANumber]
  exact stored_notANumber

theorem isNaN_sub_left (h : x.isNaN = true) : (x - y).isNaN = true := by
  refine isNaN_of_shape ?_
  rw [shape_sub, shape_of_isNaN h]
  exact stored_notANumber

theorem isNaN_sub (hx : x.isFinite = true) (hy : y.isFinite = true) : (x - y).isNaN = false := by
  rw [isNaN_eq, sign, shape_sub, signOf_stored]
  exact Option.isNone_eq_false_iff.mpr (isSome_signOf_sub hx hy)

theorem isNaN_abs : x.abs.isNaN = x.isNaN := by
  rw [isNaN_eq, isNaN_eq, sign, sign, shape_abs, signOf_stored]
  cases shape x <;> rfl

theorem sign_sqrt (h : sign x = some .positive) : sign x.sqrt = some .positive :=
  (signOf_stored _).trans (signOf_sqrt h)

theorem isNaN_sqrt (h : x.isNaN = true) : x.sqrt.isNaN = true := by
  refine isNaN_of_shape ?_
  rw [shape_sqrt, shape_of_isNaN h]
  exact stored_notANumber

theorem isFinite_add (h : (x + y).isFinite = true) : x.isFinite = true ∧ y.isFinite = true :=
  isFinite_of_add (isFinite_of_stored h)

theorem isFinite_mul (h : (x * y).isFinite = true) : x.isFinite = true ∧ y.isFinite = true :=
  isFinite_of_mul (isFinite_of_stored h)

theorem isFinite_div (h : (x / y).isFinite = true) : x.isFinite = true :=
  isFinite_of_div (isFinite_of_stored h)

theorem isFinite_sqrt (h : x.sqrt.isFinite = true) : x.isFinite = true :=
  isFinite_of_sqrt (isFinite_of_stored h)

theorem isNaN_div (hx : x.isFinite = true) (hy : y.isNaN = false) :
    (x / y).isNaN = (x == 0 && y == 0) := by
  have hfinite : (shape x).isFinite = true := hx
  have hvalue : (signOf (shape y)).isSome = true := by
    rwa [isNaN_eq, sign, Option.isNone_eq_false_iff] at hy
  rw [Bool.eq_iff_iff, isNaN_eq, Option.isNone_iff_eq_none, Bool.and_eq_true, beq_zero_iff,
    beq_zero_iff, sign, shape_div, signOf_stored, signOf_div_eq_none hfinite hvalue]

theorem isNaN_div_of_not_isFinite (hx : x.isFinite = false) (hy : y.isFinite = false) :
    (x / y).isNaN = true := by
  have hu : (shape x).isFinite = false := hx
  have hv : (shape y).isFinite = false := hy
  refine isNaN_of_shape ?_
  rw [shape_div, div_eq_notANumber hu hv, stored_notANumber]

theorem lt_iff : x < y ↔ (shape x).lt (shape y) = true := decide_eq_true_iff

theorem le_iff : x ≤ y ↔ (shape x).le (shape y) = true := decide_eq_true_iff

theorem not_lt_of_isNaN (h : y.isNaN = true) : ¬x < y := by
  rw [lt_iff, shape_of_isNaN h]
  cases shape x <;> nofun

theorem lt_iff_not_le (hx : x.isNaN = false) (hy : y.isNaN = false) : x < y ↔ ¬y ≤ x := by
  rw [isNaN_eq, sign, Option.isNone_eq_false_iff] at hx hy
  rw [lt_iff, le_iff, lt_eq_not_le hx hy, Bool.not_eq_true', Bool.not_eq_true]

/-- Zero, of either sign, or without a value. -/
def IsNull (x : Float) : Prop := isNull (shape x) = true

theorem isNull_iff : IsNull x ↔ x.isNaN = true ∨ (x == 0) = true := by
  rw [IsNull, beq_zero_iff, isNaN_eq, sign]
  cases shape x <;> simp [isNull, signOf]

theorem IsNull.beq_zero (h : IsNull x) (hx : x.isNaN = false) : (x == 0) = true :=
  (isNull_iff.mp h).resolve_left (Bool.eq_false_iff.mp hx)

theorem IsNull.mul_left (h : IsNull x) : IsNull (x * y) := isNull_stored (isNull_mul_left h)

theorem IsNull.mul_right (h : IsNull y) : IsNull (x * y) := isNull_stored (isNull_mul_right h)

theorem IsNull.add (hx : IsNull x) (hy : IsNull y) : IsNull (x + y) :=
  isNull_stored (isNull_add hx hy)

theorem IsNull.sub (hx : IsNull x) (hy : IsNull y) : IsNull (x - y) :=
  isNull_stored (isNull_sub hx hy)

theorem IsNull.neg (h : IsNull x) : IsNull (-x) := isNull_stored (isNull_neg h)

theorem IsNull.sqrt (h : IsNull x) : IsNull x.sqrt := isNull_stored (isNull_sqrt h)

theorem eq_zero_of_beq (h : (x == 0) = true) : x = 0 ∨ x = -0 := by
  obtain ⟨s, hs⟩ := beq_zero_iff.mp h
  rw [← shape_inj, ← shape_inj]
  cases s with
  | positive => exact .inl hs
  | negative => exact .inr hs

end
end QuantumOps.Double
