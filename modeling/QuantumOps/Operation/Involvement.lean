import QuantumOps.Operation.Basic
import QuantumOps.Qubit.Involved

/-!
Which qubits an operation acts on. A block acts on the qubits of its circuit and on its own; a
readout of the whole state acts on the whole register whatever its circuit does. -/
namespace QuantumOps

variable {R : Type}

def Record.involved : Record R → Involved
  | singleQubit _ q | noise _ q _ | activeReset q | measureQubit q _ _ => .ofList [q]
  | twoQubit _ c t => .ofList [c, t]
  | overrotation _ qs _ _ | stopParallelBlock qs _ | sleep qs _ | startDecompositionBlock qs _
  | stopDecompositionBlock qs => .ofList qs
  | setStateVector _ | setDensityMatrix _ | repeatGate _ | changeDevice .. | readState ..
  | repeatedMeasurement .. => .all
  | setNumberOfMeasurements .. | boostNoise _ | globalPhase _ | definition ..
  | inputSymbolic .. => .none

/-- What a block involves besides its circuit. -/
def Block.involved : Block R → Involved
  | conditional .. | loop _ => .none
  | controlled q => .ofList [q]
  | pauliProduct paulis _ => .ofList paulis.keys
  | readState .. => .all

mutual

def Operation.involved : Operation R → Involved
  | .record r => r.involved
  | .block b body => b.involved.join (Circuit.involvedFrom .none body)
  | .annotated op _ => op.involved

/-- What is involved so far, joined with each operation in turn. Nothing can be added to the whole
register, so that joining stops there. -/
def Circuit.involvedFrom (sofar : Involved) : List (Operation R) → Involved
  | [] => sofar
  | op :: rest =>
    match sofar.join op.involved with
    | .all => .all
    | joined => Circuit.involvedFrom joined rest

end

/-- What the operations of a circuit involve together. -/
def Circuit.involved (c : Circuit R) : Involved := Circuit.involvedFrom .none c

end QuantumOps
