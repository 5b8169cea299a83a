import QuantumOps.Operation.Text

/-!
The properties of an operation that can be asked for one by one, under the names and in the order of
one catalogue for all operations. -/
namespace QuantumOps

/-- The names of all properties in their order, each with the label of the field that it is. -/
def properties : List (String × String) :=
  [("qubit", "qubit"), ("control", "control"), ("target", "target"), ("theta", "theta"),
    ("phi", "phi"), ("sphericalTheta", "spherical_theta"), ("sphericalPhi", "spherical_phi"),
    ("x", "x"), ("y", "y"), ("z", "z"), ("t", "t"), ("u", "u"), ("delta", "delta"),
    ("deltaReal", "delta_real"), ("deltaImag", "delta_imag"), ("tReal", "t_real"),
    ("tImag", "t_imag"), ("qubits", "qubits"), ("parameters", "parameters"),
    ("numberMeasurements", "number_measurements"), ("readout", "readout"),
    ("statevector", "statevector"), ("densityMatrix", "density_matrix"),
    ("repetitionCoefficient", "repetition_coefficient"),
    ("noiseCoefficient", "noise_coefficient"), ("phase", "phase"),
    ("gateHqslang", "gate_hqslang"), ("amplitude", "amplitude"), ("variance", "variance"),
    ("executionTime", "execution_time"), ("sleepTime", "sleep_time"),
    ("reorderingDictionary", "reordering_dictionary"),
    ("conditionRegister", "condition_register"), ("conditionIndex", "condition_index"),
    ("circuit", "circuit"), ("wrappedTags", "wrapped_tags"),
    ("wrappedHqslang", "wrapped_hqslang"), ("wrappedOperation", "wrapped_operation"),
    ("repetitions", "repetitions"), ("controllingQubit", "controlling_qubit"),
    ("operation", "operation"), ("annotation", "annotation"), ("gateTime", "gate_time"),
    ("rate", "rate"), ("depolarisingRate", "depolarising_rate"),
    ("dephasingRate", "dephasing_rate"), ("rates", "rates"), ("readoutIndex", "readout_index"),
    ("qubitPaulis", "qubit_paulis"), ("qubitMapping", "qubit_mapping"), ("name", "name"),
    ("length", "length"), ("isOutput", "is_output"), ("input", "input")]

variable {R : Type} [Numeric R]

/-- The fields of an operation, with the lists of qubits and parameters of a gate, and with circuits
as they are. -/
def Operation.labelled : Operation R → List (String × String)
  | .record (.singleQubit g q) =>
    (Record.singleQubit g q).fields ++
      [("qubits", Text.list toString [q]),
        ("parameters", Text.list (fun p => p.2.text) g.parameters)]
  | .record (.twoQubit g c t) =>
    (Record.twoQubit g c t).fields ++
      [("qubits", Text.list toString [c, t]),
        ("parameters", Text.list (fun p => p.2.text) g.parameters)]
  | .record r => r.fields
  | .block b body => b.fields ++ [("circuit", Circuit.text body)]
  | .annotated op note =>
    [("operation", op.text), ("annotation", Text.quoted note)]

/-- The properties that an operation has, with their texts. The components of a general gate on one
qubit are not among them. -/
def Operation.properties (op : Operation R) : List (String × String) :=
  QuantumOps.properties.filterMap fun (name, label) =>
    (op.labelled.lookup label).map fun text => (name, text)

end QuantumOps
