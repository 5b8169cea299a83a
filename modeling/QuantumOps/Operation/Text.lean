import QuantumOps.Operation.Basic
import QuantumOps.Text

/-!
Operations as text: the name and all fields in their order, with circuits written out. -/
namespace QuantumOps

variable {R : Type} [Numeric R]

namespace Record

/-- The fields in their order, each with its label. -/
def fields : Record R → List (String × String)
  | singleQubit g q => ("qubit", toString q) :: g.parameters.map fun p => (p.1, p.2.text)
  | twoQubit g c t =>
    ("control", toString c) :: ("target", toString t) ::
      g.parameters.map fun p => (p.1, p.2.text)
  | noise (.general rates) q time =>
    [("qubit", toString q), ("gate_time", time.text),
      ("rates", Text.list (Text.list Numeric.format) (rates.toList.map Triple.toList))]
  | noise kind q time =>
    ("qubit", toString q) :: ("gate_time", time.text) ::
      kind.rates.map fun p => (p.1, p.2.text)
  | setNumberOfMeasurements number readout =>
    [("number_measurements", toString number), ("readout", Text.quoted readout)]
  | setStateVector amplitudes => [("statevector", Text.list Amplitude.text amplitudes)]
  | setDensityMatrix rows => [("density_matrix", Text.list (Text.list Amplitude.text) rows)]
  | repeatGate times => [("repetition_coefficient", toString times)]
  | overrotation gate qs amplitude variance =>
    [("gate_hqslang", Text.quoted gate), ("qubits", Text.list toString qs),
      ("amplitude", Numeric.format amplitude), ("variance", Numeric.format variance)]
  | boostNoise coefficient => [("noise_coefficient", coefficient.text)]
  | stopParallelBlock qs time =>
    [("qubits", Text.list toString qs), ("execution_time", time.text)]
  | globalPhase phase => [("phase", phase.text)]
  | sleep qs time => [("qubits", Text.list toString qs), ("sleep_time", time.text)]
  | activeReset q => [("qubit", toString q)]
  | startDecompositionBlock qs reordering =>
    [("qubits", Text.list toString qs), ("reordering_dictionary", Text.dict reordering)]
  | stopDecompositionBlock qs => [("qubits", Text.list toString qs)]
  | changeDevice tags name encoded =>
    [("wrapped_tags", Text.list Text.quoted tags), ("wrapped_hqslang", Text.quoted name),
      ("wrapped_operation", Text.list (fun b => toString b.toNat) encoded)]
  | measureQubit q readout index =>
    [("qubit", toString q), ("readout", Text.quoted readout), ("readout_index", toString index)]
  | readState _ readout => [("readout", Text.quoted readout), ("circuit", "None")]
  | repeatedMeasurement readout number indices =>
    [("readout", Text.quoted readout), ("number_measurements", toString number),
      ("qubit_mapping", Text.option Text.dict indices)]
  | definition _ name length isOutput =>
    [("name", Text.quoted name), ("length", toString length), ("is_output", Text.bool isOutput)]
  | inputSymbolic name value => [("name", Text.quoted name), ("input", Numeric.format value)]

def text (r : Record R) : String := Text.record r.name r.fields

end Record

namespace Block

/-- The fields before the circuit in their order, each with its label. -/
def fields : Block R → List (String × String)
  | conditional register index =>
    [("condition_register", Text.quoted register), ("condition_index", toString index)]
  | loop repetitions => [("repetitions", repetitions.text)]
  | controlled q => [("controlling_qubit", toString q)]
  | pauliProduct paulis readout =>
    [("qubit_paulis", Text.dict paulis), ("readout", Text.quoted readout)]
  | readState _ readout => [("readout", Text.quoted readout)]

/-- The circuit of a readout is written as the optional field that it is. -/
def circuitField (b : Block R) (circuit : String) : String :=
  match b with
  | readState .. => "Some(" ++ circuit ++ ")"
  | _ => circuit

end Block

/-- A circuit, given the texts of its operations. -/
def Circuit.frame (operations : List String) : String :=
  Text.record "Circuit" [("operations", "[" ++ Text.commas operations ++ "]")]

mutual

def Operation.text : Operation R → String
  | .record r => r.text
  | .block b body =>
    Text.record b.name
      (b.fields ++ [("circuit", b.circuitField (Circuit.frame (Circuit.texts body)))])
  | .annotated op note =>
    Text.record "PragmaAnnotatedOp"
      [("operation", op.text), ("annotation", Text.quoted note)]

/-- The texts of the operations of a circuit. -/
def Circuit.texts : List (Operation R) → List String
  | [] => []
  | op :: rest => op.text :: Circuit.texts rest

end

def Circuit.text (c : Circuit R) : String := Circuit.frame (Circuit.texts c)

end QuantumOps
