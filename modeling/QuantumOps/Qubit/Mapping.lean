import QuantumOps.Dict

/-!
Renaming qubits. A qubit is either looked up strictly, so that every qubit must have an entry, or
kept when the mapping has none for it. A renaming that would make two entries of one record
coincide is refused. -/
namespace QuantumOps

/-- New qubits for old ones. -/
abbrev Mapping := Dict Nat Nat

/-- Why qubits cannot be renamed. -/
inductive RemapError
  /-- The mapping does not tell what becomes of the qubit. -/
  | missing (qubit : Nat)
  /-- Two of the named entries become the same qubit. -/
  | collision (entries : String) (qubit : Nat)
  deriving DecidableEq, Repr

namespace RemapError

def qubit : RemapError → Nat
  | missing q => q
  | collision _ q => q

def message : RemapError → String
  | missing q => "Qubit " ++ toString q ++ " missing from qubit mapping"
  | collision entries q =>
    "Qubit mapping sends two entries of " ++ entries ++ " to qubit " ++ toString q

end RemapError

namespace Mapping

/-- The new qubit, which the mapping must have. -/
def strict (m : Mapping) (q : Nat) : Except RemapError Nat :=
  match m.get? q with
  | some p => .ok p
  | none => .error (.missing q)

/-- The new qubit, or the old one when the mapping has none. -/
def keep (m : Mapping) (q : Nat) : Nat := (m.get? q).getD q

/-- The new qubits of a list, in its order. -/
def strictList (m : Mapping) (qs : List Nat) : Except RemapError (List Nat) := qs.mapM m.strict

/-- The first qubit that is not mapped to itself. -/
def firstMoved? (m : Mapping) : Option Nat := (m.entries.find? fun e => e.1 ≠ e.2).map Prod.fst

/-- Renames keys and values, keeping those without an entry; `entries` names what is renamed when
two keys coincide. -/
def keepEntries {V : Type} (m : Mapping) (value : V → V) (entries : String) (d : Dict Nat V) :
    Except RemapError (Dict Nat V) :=
  d.entries.foldlM (fun renamed e =>
    let key := m.keep e.1
    if (renamed.get? key).isSome then .error (.collision entries key)
    else .ok (renamed.insert key (value e.2))) Dict.empty

/-- Renames keys strictly. Of entries that come to the same key the one with the least old key
stays. -/
def strictEntries {V : Type} (m : Mapping) (d : Dict Nat V) : Except RemapError (Dict Nat V) :=
  d.entries.foldlM (fun renamed e => do
    let key ← m.strict e.1
    return if (renamed.get? key).isSome then renamed else renamed.insert key e.2) Dict.empty

end Mapping
end QuantumOps
