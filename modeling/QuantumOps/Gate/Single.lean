/-!
Gates on one qubit. A gate is its kind with the parameters of that kind, whatever these are: scalars
in an operation, and numbers where a matrix is asked for. -/
namespace QuantumOps

/-- The gates on one qubit, with parameters of type `α`. -/
inductive SingleGate (α : Type)
  /-- The gate with the matrix `exp(i·globalPhase) · [[alpha, -conj beta], [beta, conj alpha]]`. -/
  | general (alphaR alphaI betaR betaI globalPhase : α)
  | rotateZ (theta : α)
  | rotateX (theta : α)
  | rotateY (theta : α)
  | pauliX
  | pauliY
  | pauliZ
  | sqrtPauliX
  | invSqrtPauliX
  | hadamard
  | sGate
  | tGate
  | phaseShiftState1 (theta : α)
  | phaseShiftState0 (theta : α)
  /-- A rotation about the axis with the given polar angle and azimuth. -/
  | rotateAroundSphericalAxis (theta sphericalTheta sphericalPhi : α)
  /-- A rotation about the axis in the xy-plane with the given azimuth. -/
  | rotateXY (theta phi : α)
  deriving DecidableEq, Repr

namespace SingleGate

variable {α β : Type}

def name : SingleGate α → String
  | general .. => "SingleQubitGate"
  | rotateZ _ => "RotateZ"
  | rotateX _ => "RotateX"
  | rotateY _ => "RotateY"
  | pauliX => "PauliX"
  | pauliY => "PauliY"
  | pauliZ => "PauliZ"
  | sqrtPauliX => "SqrtPauliX"
  | invSqrtPauliX => "InvSqrtPauliX"
  | hadamard => "Hadamard"
  | sGate => "SGate"
  | tGate => "TGate"
  | phaseShiftState1 _ => "PhaseShiftState1"
  | phaseShiftState0 _ => "PhaseShiftState0"
  | rotateAroundSphericalAxis .. => "RotateAroundSphericalAxis"
  | rotateXY .. => "RotateXY"

/-- The parameters in their order, each with its label. -/
def parameters : SingleGate α → List (String × α)
  | general ar ai br bi g =>
    [("alpha_r", ar), ("alpha_i", ai), ("beta_r", br), ("beta_i", bi), ("global_phase", g)]
  | rotateZ t | rotateX t | rotateY t | phaseShiftState1 t | phaseShiftState0 t => [("theta", t)]
  | rotateAroundSphericalAxis t u p =>
    [("theta", t), ("spherical_theta", u), ("spherical_phi", p)]
  | rotateXY t p => [("theta", t), ("phi", p)]
  | pauliX | pauliY | pauliZ | sqrtPauliX | invSqrtPauliX | hadamard | sGate | tGate => []

/-- Changes the parameters one after another; the first failure ends it. -/
def traverse {ε : Type} (f : α → Except ε β) : SingleGate α → Except ε (SingleGate β)
  | general ar ai br bi g =>
    return general (← f ar) (← f ai) (← f br) (← f bi) (← f g)
  | rotateZ t => return rotateZ (← f t)
  | rotateX t => return rotateX (← f t)
  | rotateY t => return rotateY (← f t)
  | pauliX => return pauliX
  | pauliY => return pauliY
  | pauliZ => return pauliZ
  | sqrtPauliX => return sqrtPauliX
  | invSqrtPauliX => return invSqrtPauliX
  | hadamard => return hadamard
  | sGate => return sGate
  | tGate => return tGate
  | phaseShiftState1 t => return phaseShiftState1 (← f t)
  | phaseShiftState0 t => return phaseShiftState0 (← f t)
  | rotateAroundSphericalAxis t u p =>
    return rotateAroundSphericalAxis (← f t) (← f u) (← f p)
  | rotateXY t p => return rotateXY (← f t) (← f p)

/-- Changes every parameter. -/
def map (f : α → β) : SingleGate α → SingleGate β
  | general ar ai br bi g => general (f ar) (f ai) (f br) (f bi) (f g)
  | rotateZ t => rotateZ (f t)
  | rotateX t => rotateX (f t)
  | rotateY t => rotateY (f t)
  | pauliX => pauliX
  | pauliY => pauliY
  | pauliZ => pauliZ
  | sqrtPauliX => sqrtPauliX
  | invSqrtPauliX => invSqrtPauliX
  | hadamard => hadamard
  | sGate => sGate
  | tGate => tGate
  | phaseShiftState1 t => phaseShiftState1 (f t)
  | phaseShiftState0 t => phaseShiftState0 (f t)
  | rotateAroundSphericalAxis t u p => rotateAroundSphericalAxis (f t) (f u) (f p)
  | rotateXY t p => rotateXY (f t) (f p)

/-- The angle of a rotation. -/
def angle? : SingleGate α → Option α
  | rotateZ t | rotateX t | rotateY t | phaseShiftState1 t | phaseShiftState0 t
  | rotateAroundSphericalAxis t _ _ | rotateXY t _ => some t
  | _ => none

/-- Changes the angle of a rotation, and no other gate. -/
def mapAngle (f : α → α) : SingleGate α → SingleGate α
  | rotateZ t => rotateZ (f t)
  | rotateX t => rotateX (f t)
  | rotateY t => rotateY (f t)
  | phaseShiftState1 t => phaseShiftState1 (f t)
  | phaseShiftState0 t => phaseShiftState0 (f t)
  | rotateAroundSphericalAxis t u p => rotateAroundSphericalAxis (f t) u p
  | rotateXY t p => rotateXY (f t) p
  | g => g

/-- The families that the gate belongs to, the widest first, and its own name. -/
def tags (g : SingleGate α) : List String :=
  ["Operation", "GateOperation", "SingleQubitGateOperation"] ++
    (if g.angle?.isSome then ["Rotation"] else []) ++ [g.name]

/-- Gates of one kind with equal parameters are equal. -/
def beq [BEq α] (g h : SingleGate α) : Bool :=
  g.name == h.name && g.parameters.map Prod.snd == h.parameters.map Prod.snd

end SingleGate
end QuantumOps
