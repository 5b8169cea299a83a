import QuantumOps.Gate.SingleMatrix
import QuantumOps.Operation.Validity
import QuantumOps.Operation.View
import QuantumOps.Version

/-!
All the ways in which a question about operations can fail, and how each is put in words. Functions
that can fail in one way only return that failure; where ways meet, they are lifted to `Failure`. -/
namespace QuantumOps

/-- Why there is no answer. -/
inductive Failure (R : Type)
  | expression (e : Expression.Error)
  | notUnitary (e : NotUnitary R)
  | remap (e : RemapError)
  | version (e : VersionMismatch)
  | conversion (e : ConversionError)
  | differentQubits (e : DifferentQubits)
  | invalid (e : Invalid)
  /-- A circuit has no operation at the index. -/
  | noOperation
  deriving Repr

section
variable {R : Type} [Numeric R]

def NotUnitary.message (e : NotUnitary R) : String :=
  "Resulting gate matrix is not unitary: alpha_r " ++ Numeric.text e.alphaR ++
    ", alpha_i " ++ Numeric.text e.alphaI ++ ", beta_r " ++ Numeric.text e.betaR ++
    ", beta_i " ++ Numeric.text e.betaI ++ ", norm " ++ Numeric.text e.norm

def Failure.message : Failure R → String
  | expression e => e.message
  | notUnitary e => e.message
  | remap e => e.message
  | version e => e.message
  | conversion e => e.message
  | differentQubits e => e.message
  | invalid e => e.message
  | noOperation => "Operation index out of range"

end

section
variable {R : Type}

instance : MonadLift (Except Expression.Error) (Except (Failure R)) := ⟨Except.mapError .expression⟩

instance : MonadLift (Except (NotUnitary R)) (Except (Failure R)) := ⟨Except.mapError .notUnitary⟩

instance : MonadLift (Except RemapError) (Except (Failure R)) := ⟨Except.mapError .remap⟩

instance : MonadLift (Except VersionMismatch) (Except (Failure R)) := ⟨Except.mapError .version⟩

instance : MonadLift (Except ConversionError) (Except (Failure R)) := ⟨Except.mapError .conversion⟩

instance : MonadLift (Except DifferentQubits) (Except (Failure R)) :=
  ⟨Except.mapError .differentQubits⟩

instance : MonadLift (Except Invalid) (Except (Failure R)) := ⟨Except.mapError .invalid⟩

/-- The operation at an index, which the circuit must have. -/
def Circuit.lookup (circuit : Circuit R) (index : Nat) : Except (Failure R) (Operation R) :=
  match circuit[index]? with
  | some op => .ok op
  | none => .error .noOperation

end
end QuantumOps
