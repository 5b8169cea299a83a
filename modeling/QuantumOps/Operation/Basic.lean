import QuantumOps.Channel
import QuantumOps.Gate.Single
import QuantumOps.Gate.Two
import QuantumOps.Qubit.Mapping

/-!
Quantum operations as trees. A record is an operation without parts: a gate on its qubits, noise, an
instruction to the simulator, a measurement or the definition of a register. A block is an operation
with a circuit inside, and an annotation wraps one operation. -/
namespace QuantumOps

/-- What a readout takes from the state of the register. -/
inductive StateQuantity
  | stateVector
  | densityMatrix
  | occupationProbability
  deriving DecidableEq, Repr

/-- What a classical register holds. -/
inductive RegisterType
  | real
  | complex
  | unsigned
  | bit
  deriving DecidableEq, Repr

/-- Operations without a circuit or operation inside. -/
inductive Record (R : Type)
  | singleQubit (gate : SingleGate (Scalar R)) (qubit : Nat)
  | twoQubit (gate : TwoGate (Scalar R)) (control target : Nat)
  | noise (kind : Noise R) (qubit : Nat) (gateTime : Scalar R)
  | setNumberOfMeasurements (number : Nat) (readout : String)
  | setStateVector (amplitudes : List (Amplitude R))
  | setDensityMatrix (rows : List (List (Amplitude R)))
  /-- Repeats the gate that follows. -/
  | repeatGate (times : Nat)
  | overrotation (gate : String) (qubits : List Nat) (amplitude variance : R)
  | boostNoise (coefficient : Scalar R)
  | stopParallelBlock (qubits : List Nat) (executionTime : Scalar R)
  | globalPhase (phase : Scalar R)
  | sleep (qubits : List Nat) (time : Scalar R)
  | activeReset (qubit : Nat)
  | startDecompositionBlock (qubits : List Nat) (reordering : Dict Nat Nat)
  | stopDecompositionBlock (qubits : List Nat)
  /-- An instruction to a device, in the encoding of that device. -/
  | changeDevice (tags : List String) (name : String) (encoded : List UInt8)
  | measureQubit (qubit : Nat) (readout : String) (index : Nat)
  /-- Reads the state as it is; with a circuit to run before, it is a block. -/
  | readState (quantity : StateQuantity) (readout : String)
  | repeatedMeasurement (readout : String) (number : Nat) (indices : Option (Dict Nat Nat))
  | definition (type : RegisterType) (name : String) (length : Nat) (isOutput : Bool)
  | inputSymbolic (name : String) (value : R)
  deriving Repr

/-- What is done with the circuit of a block. -/
inductive Block (R : Type)
  | conditional (register : String) (index : Nat)
  | loop (repetitions : Scalar R)
  | controlled (qubit : Nat)
  | pauliProduct (paulis : Dict Nat Nat) (readout : String)
  | readState (quantity : StateQuantity) (readout : String)
  deriving Repr

/-- Operations, to any depth. -/
inductive Operation (R : Type)
  | record (r : Record R)
  | block (b : Block R) (body : List (Operation R))
  | annotated (operation : Operation R) (note : String)

/-- Operations one after another. -/
abbrev Circuit (R : Type) := List (Operation R)

def StateQuantity.readoutName : StateQuantity → String
  | .stateVector => "PragmaGetStateVector"
  | .densityMatrix => "PragmaGetDensityMatrix"
  | .occupationProbability => "PragmaGetOccupationProbability"

def RegisterType.definitionName : RegisterType → String
  | .real => "DefinitionFloat"
  | .complex => "DefinitionComplex"
  | .unsigned => "DefinitionUsize"
  | .bit => "DefinitionBit"

variable {R : Type}

namespace Record

def name : Record R → String
  | singleQubit g _ => g.name
  | twoQubit g _ _ => g.name
  | noise kind _ _ => kind.name
  | setNumberOfMeasurements .. => "PragmaSetNumberOfMeasurements"
  | setStateVector _ => "PragmaSetStateVector"
  | setDensityMatrix _ => "PragmaSetDensityMatrix"
  | repeatGate _ => "PragmaRepeatGate"
  | overrotation .. => "PragmaOverrotation"
  | boostNoise _ => "PragmaBoostNoise"
  | stopParallelBlock .. => "PragmaStopParallelBlock"
  | globalPhase _ => "PragmaGlobalPhase"
  | sleep .. => "PragmaSleep"
  | activeReset _ => "PragmaActiveReset"
  | startDecompositionBlock .. => "PragmaStartDecompositionBlock"
  | stopDecompositionBlock _ => "PragmaStopDecompositionBlock"
  | changeDevice .. => "PragmaChangeDevice"
  | measureQubit .. => "MeasureQubit"
  | readState quantity _ => quantity.readoutName
  | repeatedMeasurement .. => "PragmaRepeatedMeasurement"
  | definition type .. => type.definitionName
  | inputSymbolic .. => "InputSymbolic"

/-- The families that the record belongs to, the widest first, and its own name. -/
def tags (r : Record R) : List String :=
  match r with
  | singleQubit g _ => g.tags
  | twoQubit g _ _ => g.tags
  | noise kind _ _ =>
    ["Operation", "SingleQubitOperation", "PragmaOperation", "PragmaNoiseOperation"] ++
      (if kind.hasProbability then ["PragmaNoiseProbaOperation"] else []) ++ [r.name]
  | setNumberOfMeasurements .. | setStateVector _ | setDensityMatrix _ | repeatGate _
  | boostNoise _ | globalPhase _ | changeDevice .. => ["Operation", "PragmaOperation", r.name]
  | overrotation .. | stopParallelBlock .. | sleep .. | startDecompositionBlock ..
  | stopDecompositionBlock _ => ["Operation", "MultiQubitOperation", "PragmaOperation", r.name]
  | activeReset _ => ["Operation", "SingleQubitOperation", "PragmaOperation", r.name]
  | measureQubit .. => ["Operation", "Measurement", r.name]
  | readState .. | repeatedMeasurement .. =>
    ["Operation", "Measurement", "PragmaOperation", r.name]
  | definition .. | inputSymbolic .. => ["Operation", "Definition", r.name]

end Record

namespace Block

def name : Block R → String
  | conditional .. => "PragmaConditional"
  | loop _ => "PragmaLoop"
  | controlled _ => "PragmaControlledCircuit"
  | pauliProduct .. => "PragmaGetPauliProduct"
  | readState quantity _ => quantity.readoutName

/-- The families that the block belongs to, the widest first, and its own name. -/
def tags (b : Block R) : List String :=
  match b with
  | conditional .. | loop _ | controlled _ => ["Operation", "PragmaOperation", b.name]
  | pauliProduct .. | readState .. => ["Operation", "Measurement", "PragmaOperation", b.name]

end Block

namespace Operation

def name : Operation R → String
  | record r => r.name
  | block b _ => b.name
  | annotated .. => "PragmaAnnotatedOp"

def tags : Operation R → List String
  | record r => r.tags
  | block b _ => b.tags
  | annotated .. => ["Operation", "PragmaOperation", "PragmaAnnotatedOp"]

def hasTag (op : Operation R) (tag : String) : Bool := op.tags.contains tag

end Operation

namespace Circuit

/-- How many of its operations, not counting those inside others, have the name. -/
def count (c : Circuit R) (name : String) : Nat := c.countP (·.name == name)

end Circuit
end QuantumOps
