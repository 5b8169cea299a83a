import Mathlib
import QuantumOps.Kak
import QuantumOps.Operation.Product
import QuantumOps.Proofs.Kak.Interaction

/-! Circuits of gates that act on one of two qubits each, as matrices on both. The circuits of a
decomposition are of this kind, and those made of rotations about the z-axis are diagonal. -/
namespace QuantumOps
open Complex (I)
open Scalar (number)
open scoped Kronecker

theorem SingleGate.traverse_toNumber {R : Type} (g : SingleGate R) :
    (g.map number).traverse Scalar.toNumber = .ok g := by
  cases g <;> rfl

theorem TwoGate.traverse_toNumber {R : Type} (g : TwoGate R) :
    (g.map number).traverse Scalar.toNumber = .ok g := by
  cases g <;> rfl

/-- A matrix on one qubit as a matrix on both: on the control if that is the qubit, and else on the
target, which it must be then. -/
def placed? (control target qubit : ℕ) (U : Matrix (Fin 2) (Fin 2) ℂ) :
    Option (Matrix Both Both ℂ) :=
  if qubit = control then some (U ⊗ₖ 1) else if qubit = target then some (1 ⊗ₖ U) else none

section
variable (control target : ℕ)

/-- The matrix of a gate on the control or on the target; other operations have none. -/
noncomputable def Operation.localMatrix? : Operation ℝ → Option (Matrix Both Both ℂ)
  | .record (.singleQubit g q) =>
    match g.evaluate with
    | .ok U => placed? control target q U.toMatrix
    | .error _ => none
  | _ => none

/-- The matrix of a circuit of such gates; the first of them acts first. -/
noncomputable def Circuit.localMatrix? : Circuit ℝ → Option (Matrix Both Both ℂ)
  | [] => some 1
  | op :: rest => do
    let U ← op.localMatrix? control target
    let V ← Circuit.localMatrix? rest
    return V * U

/-- The matrix of a circuit that may be absent. -/
noncomputable def Circuit.optionalMatrix? : Option (Circuit ℝ) → Option (Matrix Both Both ℂ)
  | none => some 1
  | some c => Circuit.localMatrix? control target c

end

/-- A gate on one qubit that stands on the control or on the target. -/
def Operation.IsLocal {R : Type} (control target : ℕ) (op : Operation R) : Prop :=
  ∃ g q, op = .record (.singleQubit g q) ∧ (q = control ∨ q = target)

theorem Operation.isLocal_of_localMatrix? {control target : ℕ} {op : Operation ℝ}
    {U : Matrix Both Both ℂ} (h : op.localMatrix? control target = some U) :
    op.IsLocal control target := by
  unfold Operation.localMatrix? at h
  split at h
  · rename_i g q
    split at h
    · unfold placed? at h
      split_ifs at h with hc ht
      · exact ⟨g, q, rfl, .inl hc⟩
      · exact ⟨g, q, rfl, .inr ht⟩
    · cases h
  · cases h

theorem Circuit.isLocal_of_localMatrix? {control target : ℕ} {c : Circuit ℝ}
    {U : Matrix Both Both ℂ} (h : Circuit.localMatrix? control target c = some U) :
    ∀ op ∈ c, op.IsLocal control target := by
  induction c generalizing U with
  | nil => simp
  | cons op rest ih =>
    simp only [Circuit.localMatrix?, Option.bind_eq_bind, Option.bind_eq_some_iff] at h
    obtain ⟨V, hV, W, hW, -⟩ := h
    intro op' hop
    rcases List.mem_cons.mp hop with rfl | hop
    · exact Operation.isLocal_of_localMatrix? hV
    · exact ih hW op' hop

/-- A gate with numbers for parameters that is not the general one has its matrix. -/
theorem SingleGate.evaluate_numbers {g : SingleGate ℝ} (h : g.notUnitary? = none) :
    (g.map number).evaluate = .ok g.matrix := by
  have hu : g.unitary = .ok g.matrix := by rw [SingleGate.unitary, h]
  rw [SingleGate.evaluate, SingleGate.traverse_toNumber]
  change (Except.mapError Failure.notUnitary g.unitary : Except (Failure ℝ) _) = _
  rw [hu]
  rfl

theorem Operation.localMatrix?_control {control target : ℕ} {g : SingleGate ℝ}
    (h : g.notUnitary? = none) :
    (Operation.record (.singleQubit (g.map number) control)).localMatrix? control target =
      some (g.matrix.toMatrix ⊗ₖ 1) := by
  simp [Operation.localMatrix?, SingleGate.evaluate_numbers h, placed?]

theorem Operation.localMatrix?_target {control target : ℕ} {g : SingleGate ℝ}
    (h : g.notUnitary? = none) (hq : control ≠ target) :
    (Operation.record (.singleQubit (g.map number) target)).localMatrix? control target =
      some (1 ⊗ₖ g.matrix.toMatrix) := by
  simp [Operation.localMatrix?, SingleGate.evaluate_numbers h, placed?, hq.symm]

end QuantumOps
