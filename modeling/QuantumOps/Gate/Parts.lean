import QuantumOps.Scalar
import QuantumOps.Gate.Single

/-!
The five parts that determine a gate on one qubit: two complex numbers and a phase. They are kept
symbolic, and products of gates are formed on them. -/
namespace QuantumOps

/-- The parts of `exp(i·globalPhase) · [[alpha, -conj beta], [beta, conj alpha]]`. -/
structure GateParts (R : Type) where
  alphaR : Scalar R
  alphaI : Scalar R
  betaR : Scalar R
  betaI : Scalar R
  globalPhase : Scalar R
  deriving Repr

namespace GateParts

variable {R : Type}

def alpha (p : GateParts R) : ComplexScalar R := ⟨p.alphaR, p.alphaI⟩

def beta (p : GateParts R) : ComplexScalar R := ⟨p.betaR, p.betaI⟩

def toList (p : GateParts R) : List (Scalar R) :=
  [p.alphaR, p.alphaI, p.betaR, p.betaI, p.globalPhase]

/-- The general gate with these parts. -/
def toGate (p : GateParts R) : SingleGate (Scalar R) :=
  .general p.alphaR p.alphaI p.betaR p.betaI p.globalPhase

variable [Numeric R]

/-- Numbers as components, divided by their norm if that differs from one by more than the distance
to the next double. Components that are not all numbers stay as they are. -/
def normalized (p : GateParts R) : GateParts R :=
  match p with
  | ⟨.number ar, .number ai, .number br, .number bi, g⟩ =>
    let norm := Numeric.sqrt (ar * ar + ai * ai + br * br + bi * bi)
    if Numeric.lt Numeric.epsilon (Numeric.abs (norm - 1)) then
      ⟨.number (ar / norm), .number (ai / norm), .number (br / norm), .number (bi / norm), g⟩
    else p
  | _ => p

/-- The parts of the matrix product, before normalization. -/
def product (p q : GateParts R) : GateParts R :=
  let alpha := p.alpha * q.alpha - p.beta.conj * q.beta
  let beta := p.beta * q.alpha + q.beta * p.alpha.conj
  ⟨alpha.re, alpha.im, beta.re, beta.im, p.globalPhase + q.globalPhase⟩

end GateParts

namespace SingleGate

variable {R : Type} [Numeric R]

open Numeric (pi sqrtHalf)
open Scalar (number)

/-- The parts of a gate. -/
def parts : SingleGate (Scalar R) → GateParts R
  | general ar ai br bi g => ⟨ar, ai, br, bi, g⟩
  | rotateZ t => ⟨(t.divBy 2).cos, -(t.divBy 2).sin, number 0, number 0, number 0⟩
  | rotateX t => ⟨(t.divBy 2).cos, number 0, number 0, -(t.divBy 2).sin, number 0⟩
  | rotateY t => ⟨(t.divBy 2).cos, number 0, (t.divBy 2).sin, number 0, number 0⟩
  | pauliX => ⟨number 0, number 0, number 0, number (-1), number (pi / 2)⟩
  | pauliY => ⟨number 0, number 0, number 1, number 0, number (pi / 2)⟩
  | pauliZ => ⟨number 0, number (-1), number 0, number 0, number (pi / 2)⟩
  | sqrtPauliX =>
    ⟨number (Numeric.cos (pi / 4)), number 0, number 0, number (-Numeric.sin (pi / 4)), number 0⟩
  | invSqrtPauliX =>
    ⟨number (Numeric.cos (pi / 4)), number 0, number 0, number (Numeric.sin (pi / 4)), number 0⟩
  | hadamard =>
    ⟨number 0, number (-sqrtHalf), number 0, number (-sqrtHalf), number (pi / 2)⟩
  | sGate => ⟨number sqrtHalf, number (-sqrtHalf), number 0, number 0, number (pi / 4)⟩
  | tGate =>
    ⟨number (Numeric.cos (pi / 8)), number (-Numeric.sin (pi / 8)), number 0, number 0,
      number (pi / 8)⟩
  | phaseShiftState1 t =>
    ⟨(t.divBy 2).cos, -(t.divBy 2).sin, number 0, number 0, t.divBy 2⟩
  | phaseShiftState0 t => ⟨(t.divBy 2).cos, (t.divBy 2).sin, number 0, number 0, t.divBy 2⟩
  | rotateAroundSphericalAxis t polar azimuth =>
    ⟨(t.divBy 2).cos, -(t.divBy 2).sin * polar.cos, (t.divBy 2).sin * azimuth.sin * polar.sin,
      -(t.divBy 2).sin * azimuth.cos * polar.sin, number 0⟩
  | rotateXY t p =>
    ⟨(t.divBy 2).cos, number 0, (t.divBy 2).sin * p.sin, -(t.divBy 2).sin * p.cos, number 0⟩

/-- The product of two gates on one qubit, the second acting first. -/
def mul (g h : SingleGate (Scalar R)) : SingleGate (Scalar R) :=
  (g.parts.product h.parts).normalized.toGate

end SingleGate
end QuantumOps
