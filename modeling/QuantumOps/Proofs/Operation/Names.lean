import QuantumOps.Operation.Text
import QuantumOps.Proofs.Text.Items

/-! The names of operations. Each is a word, and it tells of which kind the operation is; only the
readouts of a state have the same names with a circuit as without. -/
namespace QuantumOps

open Text (IsWord)

def SingleGate.names : List String :=
  ["SingleQubitGate", "RotateZ", "RotateX", "RotateY", "PauliX", "PauliY", "PauliZ", "SqrtPauliX",
    "InvSqrtPauliX", "Hadamard", "SGate", "TGate", "PhaseShiftState1", "PhaseShiftState0",
    "RotateAroundSphericalAxis", "RotateXY"]

def TwoGate.names : List String :=
  ["CNOT", "SWAP", "ISwap", "FSwap", "SqrtISwap", "InvSqrtISwap", "XY", "ControlledPhaseShift",
    "ControlledPauliY", "ControlledPauliZ", "MolmerSorensenXX", "VariableMSXX", "GivensRotation",
    "GivensRotationLittleEndian", "Qsim", "Fsim", "SpinInteraction", "Bogoliubov", "PMInteraction",
    "ComplexPMInteraction", "PhaseShiftedControlledZ", "PhaseShiftedControlledPhase"]

def Noise.names : List String :=
  ["PragmaDamping", "PragmaDepolarising", "PragmaDephasing", "PragmaRandomNoise",
    "PragmaGeneralNoise"]

def StateQuantity.names : List String :=
  ["PragmaGetStateVector", "PragmaGetDensityMatrix", "PragmaGetOccupationProbability"]

def RegisterType.names : List String :=
  ["DefinitionFloat", "DefinitionComplex", "DefinitionUsize", "DefinitionBit"]

theorem SingleGate.name_mem {α : Type} (g : SingleGate α) : g.name ∈ names := by
  cases g <;> simp [name, names]

theorem TwoGate.name_mem {α : Type} (g : TwoGate α) : g.name ∈ names := by
  cases g <;> simp [name, names]

theorem Noise.name_mem {R : Type} (kind : Noise R) : kind.name ∈ names := by
  cases kind <;> simp [name, names]

theorem StateQuantity.readoutName_mem : ∀ quantity : StateQuantity, quantity.readoutName ∈ names
  | .stateVector | .densityMatrix | .occupationProbability => by decide

theorem RegisterType.definitionName_mem : ∀ type : RegisterType, type.definitionName ∈ names
  | .real | .complex | .unsigned | .bit => by decide

theorem StateQuantity.readoutName_inj {quantity quantity' : StateQuantity}
    (h : quantity.readoutName = quantity'.readoutName) : quantity = quantity' := by
  cases quantity <;> cases quantity' <;> first
    | rfl
    | exact absurd h (by decide)

theorem RegisterType.definitionName_inj {type type' : RegisterType}
    (h : type.definitionName = type'.definitionName) : type = type' := by
  cases type <;> cases type' <;> first
    | rfl
    | exact absurd h (by decide)

/-- The names of the records of each kind, in the order of the kinds, and then those of blocks and
of annotations. -/
def families : List (List String) :=
  [SingleGate.names, TwoGate.names, Noise.names, ["PragmaSetNumberOfMeasurements"],
    ["PragmaSetStateVector"], ["PragmaSetDensityMatrix"], ["PragmaRepeatGate"],
    ["PragmaOverrotation"], ["PragmaBoostNoise"], ["PragmaStopParallelBlock"],
    ["PragmaGlobalPhase"], ["PragmaSleep"], ["PragmaActiveReset"],
    ["PragmaStartDecompositionBlock"], ["PragmaStopDecompositionBlock"], ["PragmaChangeDevice"],
    ["MeasureQubit"], StateQuantity.names, ["PragmaRepeatedMeasurement"], RegisterType.names,
    ["InputSymbolic"], ["PragmaConditional"], ["PragmaLoop"], ["PragmaControlledCircuit"],
    ["PragmaGetPauliProduct"], ["PragmaAnnotatedOp"]]

section
variable {i : Nat} {name : String}

theorem lt_length_families (h : name ∈ families.getD i []) : i < families.length := by
  by_contra hle
  rw [List.getD_eq_default _ _ (Nat.le_of_not_lt hle)] at h
  cases h

/-- No name is in two families. -/
theorem findIdx_families (h : name ∈ families.getD i []) :
    families.findIdx (·.contains name) = i := by
  have hall : ∀ i < families.length, ∀ name ∈ families.getD i [],
      families.findIdx (·.contains name) = i := by
    decide +kernel
  exact hall i (lt_length_families h) name h

theorem isWord_of_mem_families (h : name ∈ families.getD i []) : IsWord name := by
  have hall : ∀ i < families.length, ∀ name ∈ families.getD i [], IsWord name := by
    decide +kernel
  exact hall i (lt_length_families h) name h

end

namespace Operation

variable {R : Type}

/-- Where the names of operations of the kind stand. -/
def family : Operation R → Nat
  | record r => r.ctorIdx
  | block (.conditional ..) _ => 21
  | block (.loop _) _ => 22
  | block (.controlled _) _ => 23
  | block (.pauliProduct ..) _ => 24
  | block (.readState ..) _ => 17
  | annotated .. => 25

theorem name_mem_families (op : Operation R) : op.name ∈ families.getD op.family [] := by
  cases op with
  | record r =>
    cases r with
    | singleQubit g q => exact g.name_mem
    | twoQubit g c t => exact g.name_mem
    | noise kind q time => exact kind.name_mem
    | readState quantity readout => exact quantity.readoutName_mem
    | definition type name length isOutput => exact type.definitionName_mem
    | _ => exact List.mem_singleton_self _
  | block b body =>
    cases b with
    | readState quantity readout => exact quantity.readoutName_mem
    | _ => exact List.mem_singleton_self _
  | annotated op note => exact List.mem_singleton_self _

theorem family_congr {op op' : Operation R} (h : op.name = op'.name) : op.family = op'.family := by
  rw [← findIdx_families op.name_mem_families, ← findIdx_families op'.name_mem_families, h]

theorem isWord_name (op : Operation R) : IsWord op.name :=
  isWord_of_mem_families op.name_mem_families

end Operation

end QuantumOps
