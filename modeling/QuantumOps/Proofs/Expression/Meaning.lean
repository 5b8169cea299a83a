import QuantumOps.Expression.Value
import QuantumOps.Proofs.Dict
import QuantumOps.Proofs.Expression.Grammar

/-! What syntax trees have as their values, by one rule for each sign, operator, constant and
function. The reader, which finds the functions and the constants in tables, works out values by
these rules. -/
namespace QuantumOps.Expression

section
variable {R : Type} [Numeric R]

/-- The function of the name takes the arguments to the value. -/
inductive Applies : String → List R → R → Prop
  | sin {x : R} : Applies "sin" [x] (Numeric.sin x)
  | cos {x : R} : Applies "cos" [x] (Numeric.cos x)
  | tan {x : R} : Applies "tan" [x] (Numeric.tan x)
  | asin {x : R} : Applies "asin" [x] (Numeric.asin x)
  | acos {x : R} : Applies "acos" [x] (Numeric.acos x)
  | atan {x : R} : Applies "atan" [x] (Numeric.atan x)
  | exp {x : R} : Applies "exp" [x] (Numeric.exp x)
  | log {x : R} : Applies "log" [x] (Numeric.log x)
  | sqrt {x : R} : Applies "sqrt" [x] (Numeric.sqrt x)
  | abs {x : R} : Applies "abs" [x] (Numeric.abs x)
  | atan2 {x y : R} : Applies "atan2" [x, y] (Numeric.atan2 x y)
  | pow {x y : R} : Applies "pow" [x, y] (Numeric.pow x y)
  | maxFirst {x y : R} (h : Numeric.lt x y = false) : Applies "max" [x, y] x
  | maxSecond {x y : R} (h : Numeric.lt x y = true) : Applies "max" [x, y] y
  | minFirst {x y : R} (h : Numeric.lt y x = false) : Applies "min" [x, y] x
  | minSecond {x y : R} (h : Numeric.lt y x = true) : Applies "min" [x, y] y

mutual

/-- The tree has the value. A name stands for what it is given, and only without that for the
constant that it names. Nothing is divided by what equals zero. -/
inductive Evaluates (vars : Variables R) : Tree → R → Prop
  | number {s : String} : Evaluates vars (.number s) (Numeric.ofNumeral s)
  | given {n : String} {x : R} (h : vars.get? n = some x) : Evaluates vars (.name n) x
  | pi (h : vars.get? "pi" = none) : Evaluates vars (.name "pi") Numeric.pi
  | e (h : vars.get? "e" = none) : Evaluates vars (.name "e") Numeric.euler
  | call {n : String} {args : List Tree} {xs : List R} {y : R} (hargs : EvaluatesAll vars args xs)
      (h : Applies n xs y) : Evaluates vars (.call n args) y
  | group {t : Tree} {x : R} (h : Evaluates vars t x) : Evaluates vars (.group t) x
  | pos {t : Tree} {x : R} (h : Evaluates vars t x) : Evaluates vars (.pos t) x
  | neg {t : Tree} {x : R} (h : Evaluates vars t x) : Evaluates vars (.neg t) (-x)
  | add {l r : Tree} {x y : R} (hl : Evaluates vars l x) (hr : Evaluates vars r y) :
      Evaluates vars (.add l r) (x + y)
  | sub {l r : Tree} {x y : R} (hl : Evaluates vars l x) (hr : Evaluates vars r y) :
      Evaluates vars (.sub l r) (x - y)
  | mul {l r : Tree} {x y : R} (hl : Evaluates vars l x) (hr : Evaluates vars r y) :
      Evaluates vars (.mul l r) (x * y)
  | div {l r : Tree} {x y : R} (hl : Evaluates vars l x) (hr : Evaluates vars r y)
      (hzero : (y == 0) = false) : Evaluates vars (.div l r) (x / y)
  | pow {l r : Tree} {x y : R} (hl : Evaluates vars l x) (hr : Evaluates vars r y) :
      Evaluates vars (.pow l r) (Numeric.pow x y)

/-- The trees have the values, one by one. -/
inductive EvaluatesAll (vars : Variables R) : List Tree → List R → Prop
  | nil : EvaluatesAll vars [] []
  | cons {t : Tree} {ts : List Tree} {x : R} {xs : List R} (h : Evaluates vars t x)
      (hs : EvaluatesAll vars ts xs) : EvaluatesAll vars (t :: ts) (x :: xs)

end

/-! The tables of functions and constants. -/

theorem call_max (x y : R) : call "max" [x, y] = some (if Numeric.lt x y then y else x) := rfl

theorem call_min (x y : R) : call "min" [x, y] = some (if Numeric.lt y x then y else x) := rfl

theorem applies_max (x y : R) : Applies "max" [x, y] (Numeric.max x y) := by
  rw [Numeric.max]
  split
  · rename_i h
    exact .maxSecond h
  · rename_i h
    exact .maxFirst (Bool.eq_false_iff.mpr h)

theorem applies_min (x y : R) : Applies "min" [x, y] (Numeric.min x y) := by
  rw [Numeric.min]
  split
  · rename_i h
    exact .minSecond h
  · rename_i h
    exact .minFirst (Bool.eq_false_iff.mpr h)

theorem applies_of_mem_unaryFunctions {name : String} {f : R → R}
    (h : (name, f) ∈ unaryFunctions) (x : R) : Applies name [x] (f x) := by
  simp only [unaryFunctions, List.mem_cons, List.not_mem_nil, or_false, Prod.mk.injEq] at h
  rcases h with ⟨rfl, rfl⟩ | ⟨rfl, rfl⟩ | ⟨rfl, rfl⟩ | ⟨rfl, rfl⟩ | ⟨rfl, rfl⟩ | ⟨rfl, rfl⟩ |
    ⟨rfl, rfl⟩ | ⟨rfl, rfl⟩ | ⟨rfl, rfl⟩ | ⟨rfl, rfl⟩ <;> constructor

theorem applies_of_mem_binaryFunctions {name : String} {f : R → R → R}
    (h : (name, f) ∈ binaryFunctions) (x y : R) : Applies name [x, y] (f x y) := by
  simp only [binaryFunctions, List.mem_cons, List.not_mem_nil, or_false, Prod.mk.injEq] at h
  rcases h with ⟨rfl, rfl⟩ | ⟨rfl, rfl⟩ | ⟨rfl, rfl⟩ | ⟨rfl, rfl⟩
  · exact .atan2
  · exact .pow
  · exact applies_max x y
  · exact applies_min x y

/-- A call has the value that the function of its name gives. -/
theorem call_eq_some_iff {name : String} {xs : List R} {y : R} :
    call name xs = some y ↔ Applies name xs y := by
  constructor
  · intro h
    match xs, h with
    | [x], h =>
      obtain ⟨f, hf, rfl⟩ := Option.map_eq_some_iff.mp h
      exact applies_of_mem_unaryFunctions (Dict.mem_of_lookup hf) x
    | [x, x'], h =>
      obtain ⟨f, hf, rfl⟩ := Option.map_eq_some_iff.mp h
      exact applies_of_mem_binaryFunctions (Dict.mem_of_lookup hf) x x'
  · intro h
    cases h with
    | maxFirst h | maxSecond h =>
      rw [call_max, h]
      rfl
    | minFirst h | minSecond h =>
      rw [call_min, h]
      rfl
    | _ => rfl

variable {vars : Variables R}

theorem nameValue_eq_some_iff {n : String} {x : R} :
    nameValue vars n = some x ↔ Evaluates vars (.name n) x := by
  rw [nameValue]
  cases hn : vars.get? n with
  | some y =>
    rw [Option.some_or, Option.some.injEq]
    constructor
    · rintro rfl
      exact .given hn
    · intro h
      cases h with
      | given h => exact Option.some.inj (hn.symm.trans h)
      | pi h | e h => exact nomatch hn.symm.trans h
  | none =>
    rw [Option.none_or]
    constructor
    · intro h
      have hmem := Dict.mem_of_lookup h
      simp only [constants, List.mem_cons, List.not_mem_nil, or_false, Prod.mk.injEq] at hmem
      rcases hmem with ⟨rfl, rfl⟩ | ⟨rfl, rfl⟩
      · exact .pi hn
      · exact .e hn
    · intro h
      cases h with
      | given h => exact nomatch hn.symm.trans h
      | pi | e => rfl

theorem numbers_div (vars : Variables R) (x y : R) :
    (numbers vars).div x y = if y == 0 then none else some (x / y) := rfl

mutual

/-- The value by the rules is the one that is worked out. -/
theorem Evaluates.value_eq : ∀ {t : Tree} {x : R}, Evaluates vars t x →
    t.value (numbers vars) = some x
  | _, _, .number => rfl
  | _, _, .given h => nameValue_eq_some_iff.mpr (.given h)
  | _, _, .pi h => nameValue_eq_some_iff.mpr (.pi h)
  | _, _, .e h => nameValue_eq_some_iff.mpr (.e h)
  | _, _, .call hargs h => by
    rw [Tree.value, hargs.values_eq]
    exact call_eq_some_iff.mpr h
  | _, _, .group h | _, _, .pos h | _, _, .neg h => by
    rw [Tree.value, h.value_eq]
    rfl
  | _, _, .add hl hr | _, _, .sub hl hr | _, _, .mul hl hr | _, _, .pow hl hr => by
    rw [Tree.value, hl.value_eq, hr.value_eq]
    rfl
  | _, _, .div hl hr hzero => by
    rw [Tree.value, hl.value_eq, hr.value_eq, Option.bind_some, Option.bind_some, numbers_div,
      hzero]
    rfl

theorem EvaluatesAll.values_eq : ∀ {ts : List Tree} {xs : List R}, EvaluatesAll vars ts xs →
    Tree.values (numbers vars) ts = some xs
  | _, _, .nil => rfl
  | _, _, .cons h hs => by
    rw [Tree.values, h.value_eq, hs.values_eq]
    rfl

end

mutual

theorem Tree.evaluates : ∀ {t : Tree} {x : R}, t.value (numbers vars) = some x →
    Evaluates vars t x
  | .number s, x, h => by
    cases h
    exact .number
  | .name n, x, h => nameValue_eq_some_iff.mp h
  | .call n args, x, h => by
    obtain ⟨xs, hxs, hx⟩ := Option.bind_eq_some_iff.mp h
    exact .call (Tree.evaluatesAll hxs) (call_eq_some_iff.mp hx)
  | .group t, x, h | .pos t, x, h | .neg t, x, h => by
    obtain ⟨y, hy, rfl⟩ := Option.map_eq_some_iff.mp h
    have ht := Tree.evaluates hy
    first
      | exact .group ht
      | exact .pos ht
      | exact .neg ht
  | .add l r, x, h | .sub l r, x, h | .mul l r, x, h | .pow l r, x, h => by
    obtain ⟨y, hy, h⟩ := Option.bind_eq_some_iff.mp h
    obtain ⟨z, hz, rfl⟩ := Option.map_eq_some_iff.mp h
    have hl := Tree.evaluates hy
    have hr := Tree.evaluates hz
    first
      | exact .add hl hr
      | exact .sub hl hr
      | exact .mul hl hr
      | exact .pow hl hr
  | .div l r, x, h => by
    obtain ⟨y, hy, h⟩ := Option.bind_eq_some_iff.mp h
    obtain ⟨z, hz, h⟩ := Option.bind_eq_some_iff.mp h
    rw [numbers_div] at h
    split at h
    · cases h
    · rename_i hzero
      cases h
      exact .div (Tree.evaluates hy) (Tree.evaluates hz) (Bool.eq_false_iff.mpr hzero)

theorem Tree.evaluatesAll : ∀ {ts : List Tree} {xs : List R},
    Tree.values (numbers vars) ts = some xs → EvaluatesAll vars ts xs
  | [], xs, h => by
    cases h
    exact .nil
  | t :: ts, xs, h => by
    obtain ⟨y, hy, h⟩ := Option.bind_eq_some_iff.mp h
    obtain ⟨ys, hys, rfl⟩ := Option.map_eq_some_iff.mp h
    exact .cons (Tree.evaluates hy) (Tree.evaluatesAll hys)

end

theorem Tree.value_eq_some_iff {t : Tree} {x : R} :
    t.value (numbers vars) = some x ↔ Evaluates vars t x := ⟨Tree.evaluates, Evaluates.value_eq⟩

/-- A tree has one value at most. -/
theorem Evaluates.unique {t : Tree} {x y : R} (hx : Evaluates vars t x)
    (hy : Evaluates vars t y) : x = y :=
  Option.some.inj (hx.value_eq.symm.trans hy.value_eq)

end
end QuantumOps.Expression
