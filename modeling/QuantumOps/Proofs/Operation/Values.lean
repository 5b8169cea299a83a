import QuantumOps.Proofs.Operation.Scalars
import QuantumOps.Proofs.Operation.Substitution

/-! Substitution puts its value in place of every scalar, and fails at the first scalar that has
none. Numbers are their own values. So an operation without symbols stays as it is under any
variables, and a second substitution changes nothing. -/
namespace QuantumOps
open Expression (Variables)
open Scalar (number symbol)

variable {R : Type} [Numeric R] {vars : Variables R}

theorem Scalar.substitute_eq_error {s : Scalar R} {e : Expression.Error} :
    s.substitute vars = .error e ↔ s.evaluate vars = .error e :=
  bind_pure_eq_error

theorem Scalar.exists_substitute_iff {s : Scalar R} :
    (∃ s', s.substitute vars = .ok s') ↔ ∃ v, s.evaluate vars = .ok v := by
  constructor
  · rintro ⟨s', h⟩
    obtain ⟨v, hv, -⟩ := substitute_eq_ok.mp h
    exact ⟨v, hv⟩
  · rintro ⟨v, hv⟩
    exact ⟨number v, substitute_eq_ok.mpr ⟨v, hv, rfl⟩⟩

namespace Operation

variable {op op' : Operation R}

theorem substitute_of_values {value : Scalar R → R}
    (h : ∀ s ∈ op.scalars, s.evaluate vars = .ok (value s)) :
    op.substitute vars = .ok (op.mapScalars fun s => number (value s)) :=
  traverse_eq_ok fun s hs => Scalar.substitute_eq_ok.mpr ⟨value s, h s hs, rfl⟩

/-- Scalars that have values have them together, those of numbers being the numbers. -/
theorem exists_values_of_scalars (h : ∀ s ∈ op.scalars, ∃ v, s.evaluate vars = .ok v) :
    ∃ value : Scalar R → R, (∀ s ∈ op.scalars, s.evaluate vars = .ok (value s)) ∧
      ∀ x, value (number x) = x := by
  have : Inhabited R := ⟨0⟩
  obtain ⟨value, hvalue⟩ := exists_values (Scalar.evaluate vars)
  refine ⟨value, ?_, fun x => hvalue (number x) x rfl⟩
  intro s hs
  obtain ⟨v, hv⟩ := h s hs
  rw [hv, hvalue s v hv]

theorem exists_substitute_iff : (∃ op', op.substitute vars = .ok op') ↔
    ∀ s ∈ op.scalars, ∃ v, s.evaluate vars = .ok v := by
  constructor
  · rintro ⟨op', h⟩ s hs
    obtain ⟨k, hk, -⟩ := traverse_eq_ok_iff.mp h
    exact Scalar.exists_substitute_iff.mp ⟨k s, hk s hs⟩
  · intro h
    obtain ⟨value, hvalue, -⟩ := exists_values_of_scalars h
    exact ⟨_, substitute_of_values hvalue⟩

/-- It fails as the first scalar without a value does. -/
theorem substitute_eq_error_iff {e : Expression.Error} : op.substitute vars = .error e ↔
    ∃ before s after, op.scalars = before ++ s :: after ∧
      (∀ s' ∈ before, ∃ v, s'.evaluate vars = .ok v) ∧ s.evaluate vars = .error e := by
  rw [substitute, traverse_eq_error_iff, mapM_eq_error_iff]
  simp only [Scalar.exists_substitute_iff, Scalar.substitute_eq_error]

/-- The result has the value of each scalar in the place of the scalar. -/
theorem exists_values_of_substitute (h : op.substitute vars = .ok op') :
    ∃ value : Scalar R → R, (∀ s ∈ op.scalars, s.evaluate vars = .ok (value s)) ∧
      (∀ x, value (number x) = x) ∧ op' = op.mapScalars fun s => number (value s) := by
  obtain ⟨value, hvalue, hnumber⟩ := exists_values_of_scalars (exists_substitute_iff.mp ⟨op', h⟩)
  have hsubstitute := substitute_of_values hvalue
  rw [h] at hsubstitute
  exact ⟨value, hvalue, hnumber, Except.ok.inj hsubstitute⟩

omit [Numeric R] in
theorem isParametrized_iff : op.isParametrized = true ↔ ∃ s ∈ op.scalars, s.isSymbol = true := by
  rw [isParametrized_eq, List.any_eq_true]

omit [Numeric R] in
theorem isParametrized_mapScalars_number (value : Scalar R → R) (op : Operation R) :
    (op.mapScalars fun s => number (value s)).isParametrized = false := by
  rw [isParametrized_eq, scalars_mapScalars, List.any_map, List.any_eq_false]
  intro s _ h
  cases h

/-- An operation without symbols has no other value. -/
theorem substitute_of_not_isParametrized (h : op.isParametrized = false) (vars : Variables R) :
    op.substitute vars = .ok op := by
  have hscalars : ∀ s ∈ op.scalars, s.substitute vars = .ok (id s) := by
    intro s hs
    cases s with
    | number x => rfl
    | symbol e =>
      have hsymbol := isParametrized_iff.mpr ⟨symbol e, hs, rfl⟩
      rw [h] at hsymbol
      cases hsymbol
  rw [substitute, traverse_eq_ok hscalars, mapScalars_id]

/-- Substitution succeeds just when every scalar of an operation and of all inside it has a value,
and fails as the first that has none. What it gives is the operation with the values in place of the
scalars, each symbol having a finite one, and is not changed by any further substitution. -/
theorem substitute_exact (vars : Variables R) (op : Operation R) :
    ((∃ op', op.substitute vars = .ok op') ↔ ∀ s ∈ op.scalars, ∃ v, s.evaluate vars = .ok v) ∧
    (∀ e, op.substitute vars = .error e ↔ ∃ before s after, op.scalars = before ++ s :: after ∧
      (∀ s' ∈ before, ∃ v, s'.evaluate vars = .ok v) ∧ s.evaluate vars = .error e) ∧
    (op.isParametrized = true ↔ ∃ s ∈ op.scalars, s.isSymbol = true) ∧
    (op.isParametrized = false → op.substitute vars = .ok op) ∧
    ∀ op', op.substitute vars = .ok op' →
      op'.isParametrized = false ∧ (∀ vars', op'.substitute vars' = .ok op') ∧
      (op.IsValid → op'.IsValid) ∧
      ∃ value : Scalar R → R, op' = (op.mapScalars fun s => number (value s)) ∧
        (∀ x, value (number x) = x) ∧ ∀ e, symbol e ∈ op.scalars →
          Expression.evaluate vars e = .ok (value (symbol e)) ∧
            Numeric.isFinite (value (symbol e)) = true := by
  refine ⟨exists_substitute_iff, fun e => substitute_eq_error_iff, isParametrized_iff,
    fun h => substitute_of_not_isParametrized h vars, ?_⟩
  intro op' h
  obtain ⟨value, hscalars, hnumber, rfl⟩ := exists_values_of_substitute h
  have hvalues := isParametrized_mapScalars_number value op
  refine ⟨hvalues, substitute_of_not_isParametrized hvalues, isValid_mapScalars, value, rfl,
    hnumber, ?_⟩
  intro e he
  exact Scalar.evaluateFinite_eq_ok_iff.mp (hscalars _ he)

/-- A loop with the sum as its count and as the parameters of what it repeats. -/
theorem substitute_exact_loop :
    let loop (s : Scalar Whole) : Operation Whole :=
      .annotated (.block (.loop s) [.record (.singleQubit (.rotateX s) 0),
        .record (.noise (.damping (number (.value 2))) 0 s)]) "note"
    (loop (symbol "theta + phi")).substitute oneAndThree = .ok (loop (number (.value 4))) ∧
    (loop (number (.value 4))).IsValid ∧ (loop (number (.value 4))).isParametrized = false ∧
    (loop (number (.value 4))).substitute Dict.empty = .ok (loop (number (.value 4))) := by
  intro loop
  have hvalue : (symbol "theta + phi").evaluate oneAndThree = .ok (.value 4) :=
    has_theta_add_phi.evaluate rfl
  obtain ⟨hsuccess, -, -, -, hresult⟩ :=
    substitute_exact oneAndThree (loop (symbol "theta + phi"))
  obtain ⟨-, -, -, hnumbers, -⟩ := substitute_exact Dict.empty (loop (number (.value 4)))
  have hscalars : ∀ s ∈ (loop (symbol "theta + phi")).scalars,
      ∃ v, s.evaluate oneAndThree = .ok v := by
    intro s hs
    have hs : s = symbol "theta + phi" ∨ s = number (.value 2) := by
      simpa [loop, scalars, Circuit.scalars, Block.scalars, Record.scalars,
        SingleGate.parameters, Noise.rates] using hs
    rcases hs with rfl | rfl
    · exact ⟨_, hvalue⟩
    · exact ⟨_, rfl⟩
  have hvalid : (loop (symbol "theta + phi")).IsValid := by
    intro r hr
    have hr : r = .singleQubit (.rotateX (symbol "theta + phi")) 0 ∨
        r = .noise (.damping (number (.value 2))) 0 (symbol "theta + phi") := by
      simpa [loop, nested, Circuit.nested] using hr
    rcases hr with rfl | rfl <;> rfl
  obtain ⟨op', hop'⟩ := hsuccess.mpr hscalars
  obtain ⟨-, -, hvalid', value, rfl, hnumber, hsymbol⟩ := hresult op' hop'
  have hsum : value (symbol "theta + phi") = .value 4 := by
    have hevaluate := (hsymbol "theta + phi" List.mem_cons_self).1
    rw [(Scalar.evaluateFinite_eq_ok_iff.mp hvalue).1] at hevaluate
    exact (Except.ok.inj hevaluate).symm
  have hloop : ((loop (symbol "theta + phi")).mapScalars fun s => number (value s)) =
      loop (number (.value 4)) := by
    simp only [loop, mapScalars, Circuit.mapScalars, Block.mapScalars, Record.mapScalars,
      SingleGate.map, Noise.map, hnumber, hsum]
  rw [hloop] at hop' hvalid'
  exact ⟨hop', hvalid' hvalid, rfl, hnumbers rfl⟩

end Operation

end QuantumOps
