import QuantumOps.Qubit.Set

/-!
Which qubits an operation acts on: the whole register or a finite set of qubits. Acting on no
qubits is acting on the empty set. -/
namespace QuantumOps

/-- The whole register, or only certain qubits of it. -/
inductive Involved
  | all
  | only (qubits : QubitSet)
  deriving DecidableEq, Repr

namespace Involved

/-- No qubits. -/
def none : Involved := only ∅

instance : Inhabited Involved := ⟨none⟩

/-- The qubits of a list. -/
def ofList (l : List Nat) : Involved := only (.ofList l)

/-- What either involves; the whole register contains every set of qubits. -/
def join : Involved → Involved → Involved
  | only s, only t => only (s ∪ t)
  | _, _ => all

def isAll : Involved → Bool
  | all => true
  | only _ => false

def isNone : Involved → Bool
  | all => false
  | only s => s.isEmpty

def isSet : Involved → Bool
  | all => false
  | only s => !s.isEmpty

/-- The qubits that are named one by one. -/
def qubits : Involved → QubitSet
  | all => ∅
  | only s => s

def text : Involved → String
  | all => "All"
  | only s =>
    if s.isEmpty then "None"
    else "Set(\x7b" ++ String.intercalate ", " (s.elements.map toString) ++ "\x7d)"

end Involved
end QuantumOps
