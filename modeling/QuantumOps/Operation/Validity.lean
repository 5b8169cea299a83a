import QuantumOps.Operation.Basic

/-!
What a record must satisfy to be one: a gate on two qubits has two of them, rates are finite, and
density matrices are square. Records are made from fields by `Record.check`. -/
namespace QuantumOps

/-- Why fields do not make a record. -/
inductive Invalid
  | sameQubits (gate : String)
  | notSquare
  | ratesNotFinite
  deriving DecidableEq, Repr

def Invalid.message : Invalid → String
  | sameQubits gate => gate ++ ": control and target must be different qubits"
  | notSquare => "PragmaSetDensityMatrix: density matrix must be square"
  | ratesNotFinite => "PragmaGeneralNoise: rates must be finite"

variable {R : Type} [Numeric R]

namespace Record

/-- What is wrong with the fields of a record, if anything is. -/
def fault? : Record R → Option Invalid
  | twoQubit g c t => if c = t then some (.sameQubits g.name) else none
  | setDensityMatrix rows =>
    if rows.all (·.length = rows.length) then none else some .notSquare
  | noise (.general rates) _ _ =>
    if rates.toList.all (·.toList.all Numeric.isFinite) then none else some .ratesNotFinite
  | _ => none

/-- The record, if its fields make one. -/
def check (r : Record R) : Except Invalid (Record R) :=
  match r.fault? with
  | some e => .error e
  | none => .ok r

end Record

end QuantumOps
