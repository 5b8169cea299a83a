import QuantumOps.Matrix
import QuantumOps.Gate.Single

/-!
The unitary matrices of gates on one qubit. Only the general gate can fail to be unitary; its four
components must not all be zero, and their squares must add up to one within a tolerance. -/
namespace QuantumOps

/-- The components of a general gate are not those of a unitary matrix. -/
structure NotUnitary (R : Type) where
  alphaR : R
  alphaI : R
  betaR : R
  betaI : R
  norm : R
  deriving Repr

namespace SingleGate

variable {R : Type} [Numeric R]

open Numeric (cos sin pi sqrtHalf)
open Amplitude (phase)

/-- The matrix of the gate, whether it is unitary or not. -/
def matrix : SingleGate R → Matrix2 (Amplitude R)
  | general ar ai br bi g =>
    let alpha : Amplitude R := ⟨ar, ai⟩
    let beta : Amplitude R := ⟨br, bi⟩
    ⟨⟨phase g * alpha, phase g * -beta.conj⟩, ⟨phase g * beta, phase g * alpha.conj⟩⟩
  | rotateZ t =>
    let c := cos (t / 2)
    let s := sin (t / 2)
    ⟨⟨⟨c, -s⟩, 0⟩, ⟨0, ⟨c, s⟩⟩⟩
  | rotateX t =>
    let c := cos (t / 2)
    let s := sin (t / 2)
    ⟨⟨.ofReal c, ⟨0, -s⟩⟩, ⟨⟨0, -s⟩, .ofReal c⟩⟩
  | rotateY t =>
    let c := cos (t / 2)
    let s := sin (t / 2)
    ⟨⟨.ofReal c, .ofReal (-s)⟩, ⟨.ofReal s, .ofReal c⟩⟩
  | pauliX => ⟨⟨0, 1⟩, ⟨1, 0⟩⟩
  | pauliY => ⟨⟨0, -.i⟩, ⟨.i, 0⟩⟩
  | pauliZ => ⟨⟨1, 0⟩, ⟨0, -1⟩⟩
  | sqrtPauliX =>
    let c := cos (pi / 4)
    let s := sin (pi / 4)
    ⟨⟨.ofReal c, ⟨0, -s⟩⟩, ⟨⟨0, -s⟩, .ofReal c⟩⟩
  | invSqrtPauliX =>
    let c := cos (pi / 4)
    let s := sin (pi / 4)
    ⟨⟨.ofReal c, ⟨0, s⟩⟩, ⟨⟨0, s⟩, .ofReal c⟩⟩
  | hadamard =>
    let f := Amplitude.ofReal sqrtHalf
    ⟨⟨f, f⟩, ⟨f, -f⟩⟩
  | sGate => ⟨⟨1, 0⟩, ⟨0, .i⟩⟩
  | tGate => ⟨⟨1, 0⟩, ⟨0, phase (pi / 4)⟩⟩
  | phaseShiftState1 t => ⟨⟨1, 0⟩, ⟨0, phase t⟩⟩
  | phaseShiftState0 t => ⟨⟨phase t, 0⟩, ⟨0, 1⟩⟩
  | rotateAroundSphericalAxis t polar azimuth =>
    let c := cos (t / 2)
    let s := sin (t / 2)
    let x := sin polar * cos azimuth
    let y := sin polar * sin azimuth
    let z := cos polar
    ⟨⟨⟨c, -s * z⟩, ⟨-s * y, -s * x⟩⟩, ⟨⟨s * y, -s * x⟩, ⟨c, s * z⟩⟩⟩
  | rotateXY t p =>
    let c := cos (t / 2)
    let s := sin (t / 2)
    let x := cos p
    let y := sin p
    ⟨⟨.ofReal c, ⟨-s * y, -s * x⟩⟩, ⟨⟨s * y, -s * x⟩, .ofReal c⟩⟩

/-- What keeps the gate from being unitary, if anything does. -/
def notUnitary? : SingleGate R → Option (NotUnitary R)
  | general ar ai br bi _ =>
    let norm := ar * ar + ai * ai + br * br + bi * bi
    let allZero := ar == 0 && ai == 0 && br == 0 && bi == 0
    if allZero || Numeric.lt Numeric.unitaryTolerance (Numeric.abs (norm - 1)) then
      some ⟨ar, ai, br, bi, norm⟩
    else none
  | _ => none

/-- The unitary matrix of the gate. -/
def unitary (g : SingleGate R) : Except (NotUnitary R) (Matrix2 (Amplitude R)) :=
  match g.notUnitary? with
  | some e => .error e
  | none => .ok g.matrix

end SingleGate
end QuantumOps
