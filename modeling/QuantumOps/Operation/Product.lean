import QuantumOps.Failure
import QuantumOps.Gate.Parts
import QuantumOps.Gate.TwoMatrix

/-!
Gates with scalars for parameters as matrices, and the product of operations on one qubit. Matrices
need numbers, whereas products are formed with symbolic parameters too. -/
namespace QuantumOps

variable {R : Type} [Numeric R]

/-- The unitary matrix of a gate, all parameters of which must be numbers. -/
def SingleGate.evaluate (g : SingleGate (Scalar R)) :
    Except (Failure R) (Matrix2 (Amplitude R)) := do
  let g : SingleGate R ← liftM (g.traverse Scalar.toNumber)
  liftM g.unitary

/-- The unitary matrix of a gate, all parameters of which must be numbers. -/
def TwoGate.evaluate (g : TwoGate (Scalar R)) :
    Except Expression.Error (Matrix4 (Amplitude R)) :=
  return (← g.traverse Scalar.toNumber).matrix

/-- The product of two gates on the same qubit, the second acting first. -/
def Operation.mul (a b : Operation R) : Except (Failure R) (Operation R) := do
  let (g, p) ← a.toSingleQubit
  let (h, q) ← b.toSingleQubit
  if p = q then return .record (.singleQubit (g.mul h) q) else throw (.differentQubits ⟨p, q⟩)

end QuantumOps
