/-!
Gates on two qubits. As with gates on one qubit, a gate is its kind with the parameters of that
kind. -/
namespace QuantumOps

/-- The gates on two qubits, with parameters of type `α`. -/
inductive TwoGate (α : Type)
  | cnot
  | swap
  | iSwap
  | fSwap
  | sqrtISwap
  | invSqrtISwap
  | xy (theta : α)
  | controlledPhaseShift (theta : α)
  | controlledPauliY
  | controlledPauliZ
  | molmerSorensenXX
  | variableMSXX (theta : α)
  | givensRotation (theta phi : α)
  | givensRotationLittleEndian (theta phi : α)
  | qsim (x y z : α)
  | fsim (t u delta : α)
  | spinInteraction (x y z : α)
  | bogoliubov (deltaReal deltaImag : α)
  | pmInteraction (t : α)
  | complexPMInteraction (tReal tImag : α)
  | phaseShiftedControlledZ (phi : α)
  | phaseShiftedControlledPhase (theta phi : α)
  deriving DecidableEq, Repr

namespace TwoGate

variable {α β : Type}

def name : TwoGate α → String
  | cnot => "CNOT"
  | swap => "SWAP"
  | iSwap => "ISwap"
  | fSwap => "FSwap"
  | sqrtISwap => "SqrtISwap"
  | invSqrtISwap => "InvSqrtISwap"
  | xy _ => "XY"
  | controlledPhaseShift _ => "ControlledPhaseShift"
  | controlledPauliY => "ControlledPauliY"
  | controlledPauliZ => "ControlledPauliZ"
  | molmerSorensenXX => "MolmerSorensenXX"
  | variableMSXX _ => "VariableMSXX"
  | givensRotation .. => "GivensRotation"
  | givensRotationLittleEndian .. => "GivensRotationLittleEndian"
  | qsim .. => "Qsim"
  | fsim .. => "Fsim"
  | spinInteraction .. => "SpinInteraction"
  | bogoliubov .. => "Bogoliubov"
  | pmInteraction _ => "PMInteraction"
  | complexPMInteraction .. => "ComplexPMInteraction"
  | phaseShiftedControlledZ _ => "PhaseShiftedControlledZ"
  | phaseShiftedControlledPhase .. => "PhaseShiftedControlledPhase"

/-- The parameters in their order, each with its label. -/
def parameters : TwoGate α → List (String × α)
  | cnot | swap | iSwap | fSwap | sqrtISwap | invSqrtISwap
  | controlledPauliY | controlledPauliZ | molmerSorensenXX => []
  | xy t | controlledPhaseShift t | variableMSXX t => [("theta", t)]
  | givensRotation t p | givensRotationLittleEndian t p | phaseShiftedControlledPhase t p =>
    [("theta", t), ("phi", p)]
  | qsim x y z | spinInteraction x y z => [("x", x), ("y", y), ("z", z)]
  | fsim t u d => [("t", t), ("u", u), ("delta", d)]
  | bogoliubov re im => [("delta_real", re), ("delta_imag", im)]
  | pmInteraction t => [("t", t)]
  | complexPMInteraction re im => [("t_real", re), ("t_imag", im)]
  | phaseShiftedControlledZ p => [("phi", p)]

/-- Changes the parameters one after another; the first failure ends it. -/
def traverse {ε : Type} (f : α → Except ε β) : TwoGate α → Except ε (TwoGate β)
  | cnot => return cnot
  | swap => return swap
  | iSwap => return iSwap
  | fSwap => return fSwap
  | sqrtISwap => return sqrtISwap
  | invSqrtISwap => return invSqrtISwap
  | xy t => return xy (← f t)
  | controlledPhaseShift t => return controlledPhaseShift (← f t)
  | controlledPauliY => return controlledPauliY
  | controlledPauliZ => return controlledPauliZ
  | molmerSorensenXX => return molmerSorensenXX
  | variableMSXX t => return variableMSXX (← f t)
  | givensRotation t p => return givensRotation (← f t) (← f p)
  | givensRotationLittleEndian t p => return givensRotationLittleEndian (← f t) (← f p)
  | qsim x y z => return qsim (← f x) (← f y) (← f z)
  | fsim t u d => return fsim (← f t) (← f u) (← f d)
  | spinInteraction x y z => return spinInteraction (← f x) (← f y) (← f z)
  | bogoliubov re im => return bogoliubov (← f re) (← f im)
  | pmInteraction t => return pmInteraction (← f t)
  | complexPMInteraction re im => return complexPMInteraction (← f re) (← f im)
  | phaseShiftedControlledZ p => return phaseShiftedControlledZ (← f p)
  | phaseShiftedControlledPhase t p => return phaseShiftedControlledPhase (← f t) (← f p)

/-- Changes every parameter. -/
def map (f : α → β) : TwoGate α → TwoGate β
  | cnot => cnot
  | swap => swap
  | iSwap => iSwap
  | fSwap => fSwap
  | sqrtISwap => sqrtISwap
  | invSqrtISwap => invSqrtISwap
  | xy t => xy (f t)
  | controlledPhaseShift t => controlledPhaseShift (f t)
  | controlledPauliY => controlledPauliY
  | controlledPauliZ => controlledPauliZ
  | molmerSorensenXX => molmerSorensenXX
  | variableMSXX t => variableMSXX (f t)
  | givensRotation t p => givensRotation (f t) (f p)
  | givensRotationLittleEndian t p => givensRotationLittleEndian (f t) (f p)
  | qsim x y z => qsim (f x) (f y) (f z)
  | fsim t u d => fsim (f t) (f u) (f d)
  | spinInteraction x y z => spinInteraction (f x) (f y) (f z)
  | bogoliubov re im => bogoliubov (f re) (f im)
  | pmInteraction t => pmInteraction (f t)
  | complexPMInteraction re im => complexPMInteraction (f re) (f im)
  | phaseShiftedControlledZ p => phaseShiftedControlledZ (f p)
  | phaseShiftedControlledPhase t p => phaseShiftedControlledPhase (f t) (f p)

/-- The angle of a gate that can be raised to a power. -/
def angle? : TwoGate α → Option α
  | xy t | controlledPhaseShift t | variableMSXX t | givensRotation t _
  | givensRotationLittleEndian t _ | phaseShiftedControlledPhase t _ => some t
  | _ => none

/-- Changes the angle of a gate that can be raised to a power, and no other gate. -/
def mapAngle (f : α → α) : TwoGate α → TwoGate α
  | xy t => xy (f t)
  | controlledPhaseShift t => controlledPhaseShift (f t)
  | variableMSXX t => variableMSXX (f t)
  | givensRotation t p => givensRotation (f t) p
  | givensRotationLittleEndian t p => givensRotationLittleEndian (f t) p
  | phaseShiftedControlledPhase t p => phaseShiftedControlledPhase (f t) p
  | g => g

/-- Whether the gate counts among the rotations. A phase shifted controlled phase has an angle but
does not. -/
def isRotation : TwoGate α → Bool
  | phaseShiftedControlledPhase .. => false
  | g => g.angle?.isSome

/-- The families that the gate belongs to, the widest first, and its own name. -/
def tags (g : TwoGate α) : List String :=
  ["Operation", "GateOperation", "TwoQubitGateOperation"] ++
    (if g.isRotation then ["Rotation"] else []) ++ [g.name]

/-- Gates of one kind with equal parameters are equal. -/
def beq [BEq α] (g h : TwoGate α) : Bool :=
  g.name == h.name && g.parameters.map Prod.snd == h.parameters.map Prod.snd

end TwoGate
end QuantumOps
