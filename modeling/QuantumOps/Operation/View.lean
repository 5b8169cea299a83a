import QuantumOps.Operation.Basic

/-!
Views of an operation as something narrower: as the record of a given name, a gate on one or two
qubits, a rotation, or noise. Rotations and noise can be raised to a power, which multiplies the
angle or the time. -/
namespace QuantumOps

/-- An operation is not what it was to be seen as. -/
structure ConversionError where
  start : String
  target : String
  deriving DecidableEq, Repr

def ConversionError.message (e : ConversionError) : String :=
  "Cannot convert " ++ e.start ++ " to " ++ e.target

namespace Operation

variable {R : Type}

/-- The operation, which must have the name. -/
def ofName (op : Operation R) (name : String) : Except ConversionError (Operation R) :=
  if op.name = name then .ok op else .error ⟨op.name, name⟩

/-- The gate on one qubit, and the qubit. -/
def toSingleQubit : Operation R → Except ConversionError (SingleGate (Scalar R) × Nat)
  | record (.singleQubit g q) => .ok (g, q)
  | op => .error ⟨op.name, "SingleQubitGateOperation"⟩

/-- The gate on two qubits, and the qubits. -/
def toTwoQubit : Operation R → Except ConversionError (TwoGate (Scalar R) × Nat × Nat)
  | record (.twoQubit g c t) => .ok (g, c, t)
  | op => .error ⟨op.name, "TwoQubitGateOperation"⟩

/-- The angle of a rotation. -/
def angle? : Operation R → Option (Scalar R)
  | record (.singleQubit g _) => g.angle?
  | record (.twoQubit g _ _) => g.angle?
  | _ => none

/-- The angle of an operation that must be a rotation. -/
def toRotation (op : Operation R) : Except ConversionError (Scalar R) :=
  match op.angle? with
  | some angle => .ok angle
  | none => .error ⟨op.name, "Rotate"⟩

/-- The noise, the qubit and the gate time. -/
def toNoise : Operation R → Except ConversionError (Noise R × Nat × Scalar R)
  | record (.noise kind q time) => .ok (kind, q, time)
  | op => .error ⟨op.name, "PragmaNoiseOperation"⟩

/-- The noise, which must have a probability, the qubit and the gate time. -/
def toProbableNoise (op : Operation R) : Except ConversionError (Noise R × Nat × Scalar R) :=
  match op with
  | record (.noise kind q time) =>
    if kind.hasProbability then .ok (kind, q, time)
    else .error ⟨op.name, "PragmaNoiseProbaOperation"⟩
  | op => .error ⟨op.name, "PragmaNoiseProbaOperation"⟩

/-- The operation inside an annotation. -/
def unwrap : Operation R → Except ConversionError (Operation R)
  | annotated op _ => .ok op
  | op => .error ⟨op.name, "PragmaAnnotatedOp"⟩

section
variable [Numeric R]

/-- A rotation with its angle multiplied. -/
def rotationPower (power : Scalar R) : Operation R → Except ConversionError (Operation R)
  | record (.singleQubit g q) =>
    if g.angle?.isSome then .ok (record (.singleQubit (g.mapAngle (· * power)) q))
    else .error ⟨g.name, "Rotate"⟩
  | record (.twoQubit g c t) =>
    if g.angle?.isSome then .ok (record (.twoQubit (g.mapAngle (· * power)) c t))
    else .error ⟨g.name, "Rotate"⟩
  | op => .error ⟨op.name, "Rotate"⟩

/-- Noise with its gate time multiplied. -/
def noisePower (power : Scalar R) : Operation R → Except ConversionError (Operation R)
  | record (.noise kind q time) => .ok (record (.noise kind q (time * power)))
  | op => .error ⟨op.name, "PragmaNoiseOperation"⟩

/-- The power of noise or of a rotation. -/
def power (power : Scalar R) (op : Operation R) : Except ConversionError (Operation R) :=
  if op.hasTag "PragmaNoiseOperation" then op.noisePower power else op.rotationPower power

end
end Operation

/-- Gates on different qubits have no product. -/
structure DifferentQubits where
  left : Nat
  right : Nat
  deriving DecidableEq, Repr

def DifferentQubits.message (e : DifferentQubits) : String :=
  "Qubits " ++ toString e.left ++ " and " ++ toString e.right ++
    " incompatible. Gates acting on different qubits can not be multiplied"

end QuantumOps
