import QuantumOps.Operation.Equality
import QuantumOps.Operation.Text

/-!
Canonical decompositions of gates on two qubits. Up to a phase, every such gate is the interaction
`exp(i(x·XX + y·YY + z·ZZ))` between gates on single qubits that are done before and after it. -/
namespace QuantumOps

/-- The phase, the strengths of the interaction, and what is done before and after it, if
anything. -/
structure Kak (R : Type) where
  globalPhase : Scalar R
  strengths : Triple (Scalar R)
  before : Option (Circuit R)
  after : Option (Circuit R)

namespace Kak

variable {R : Type} [Numeric R]

instance : BEq (Kak R) :=
  ⟨fun k l => k.globalPhase == l.globalPhase && k.strengths == l.strengths &&
    k.before == l.before && k.after == l.after⟩

def text (k : Kak R) : String :=
  Text.record "KakDecomposition"
    [("global_phase", k.globalPhase.text),
      ("k_vector", Text.list Scalar.text k.strengths.toList),
      ("circuit_before", Text.option Circuit.text k.before),
      ("circuit_after", Text.option Circuit.text k.after)]

end Kak

namespace TwoGate

variable {R : Type} [Numeric R]

open Numeric (pi)
open Scalar (number)

/-- Rotations in a circuit of their own. -/
def rotations (gates : List (SingleGate (Scalar R) × Nat)) : Option (Circuit R) :=
  some (gates.map fun g => .record (.singleQubit g.1 g.2))

/-- The decomposition of the gate on a control and a target. -/
def kak (g : TwoGate (Scalar R)) (control target : Nat) : Kak R :=
  let zero : Scalar R := number 0
  let half : Scalar R := number (pi / 2)
  let minusHalf : Scalar R := number (-(pi / 2))
  let quarter : Scalar R := number (pi / 4)
  let minusQuarter : Scalar R := number (-(pi / 4))
  let eighth : Scalar R := number (pi / 8)
  let minusEighth : Scalar R := number (-(pi / 8))
  match g with
  | cnot =>
    ⟨quarter, ⟨quarter, zero, zero⟩,
      rotations [(.rotateZ half, control), (.rotateY half, control), (.rotateX half, target)],
      rotations [(.rotateY minusHalf, control)]⟩
  | swap => ⟨minusQuarter, ⟨quarter, quarter, quarter⟩, none, none⟩
  | iSwap => ⟨zero, ⟨quarter, quarter, zero⟩, none, none⟩
  | fSwap =>
    ⟨minusHalf, ⟨quarter, quarter, zero⟩,
      rotations [(.rotateZ minusHalf, control), (.rotateZ minusHalf, target)], none⟩
  | sqrtISwap => ⟨zero, ⟨eighth, eighth, zero⟩, none, none⟩
  | invSqrtISwap => ⟨zero, ⟨minusEighth, minusEighth, zero⟩, none, none⟩
  | xy t => ⟨zero, ⟨t.divBy 4, t.divBy 4, zero⟩, none, none⟩
  | controlledPhaseShift t =>
    ⟨t.divBy 4, ⟨zero, zero, t.divBy 4⟩,
      rotations [(.rotateZ (t.divBy 2), control), (.rotateZ (t.divBy 2), target)], none⟩
  | controlledPauliY =>
    ⟨quarter, ⟨zero, zero, quarter⟩,
      rotations [(.rotateZ half, control), (.rotateY half, target), (.rotateX half, target)],
      rotations [(.rotateX minusHalf, target)]⟩
  | controlledPauliZ =>
    ⟨quarter, ⟨zero, zero, quarter⟩,
      rotations [(.rotateZ half, control), (.rotateZ half, target)], none⟩
  | molmerSorensenXX => ⟨zero, ⟨minusQuarter, zero, zero⟩, none, none⟩
  | variableMSXX t => ⟨zero, ⟨t * number (-(1 / 2)), zero, zero⟩, none, none⟩
  | givensRotation t p =>
    ⟨p.divBy 2, ⟨t.divBy 2, t.divBy 2, zero⟩, rotations [(.rotateZ (p + half), target)],
      rotations [(.rotateZ minusHalf, target)]⟩
  | givensRotationLittleEndian t p =>
    ⟨p.divBy 2, ⟨t.divBy 2, t.divBy 2, zero⟩, rotations [(.rotateZ minusHalf, control)],
      rotations [(.rotateZ (p + half), control)]⟩
  | qsim x y z => ⟨minusQuarter, ⟨-x + quarter, -y + quarter, -z + quarter⟩, none, none⟩
  | fsim t u d =>
    let angle := u.divBy (-2) - half
    ⟨u.divBy (-4) - half,
      ⟨t.divBy (-2) + d.divBy 2 + quarter, t.divBy (-2) - d.divBy 2 + quarter, u.divBy (-4)⟩,
      none, rotations [(.rotateZ angle, control), (.rotateZ angle, target)]⟩
  | spinInteraction x y z => ⟨zero, ⟨-x, -y, -z⟩, none, none⟩
  | bogoliubov re im =>
    let delta : ComplexScalar R := ⟨re, im⟩
    ⟨zero, ⟨delta.norm.divBy 2, delta.norm.divBy (-2), zero⟩,
      rotations [(.rotateZ delta.arg, target)], rotations [(.rotateZ (-delta.arg), target)]⟩
  | pmInteraction t => ⟨zero, ⟨t.divBy (-2), t.divBy (-2), zero⟩, none, none⟩
  | complexPMInteraction re im =>
    let t : ComplexScalar R := ⟨re, im⟩
    ⟨zero, ⟨t.norm.divBy (-2), t.norm.divBy (-2), zero⟩,
      rotations [(.rotateZ t.arg, target)], rotations [(.rotateZ (-t.arg), target)]⟩
  | phaseShiftedControlledZ p =>
    ⟨p + quarter, ⟨zero, zero, quarter⟩,
      rotations [(.rotateZ half, control), (.rotateZ half, target)],
      rotations [(.rotateZ p, control), (.rotateZ p, target)]⟩
  | phaseShiftedControlledPhase t p =>
    ⟨t.divBy 4 + p, ⟨zero, zero, t.divBy 4⟩,
      rotations [(.rotateZ (t.divBy 2), control), (.rotateZ (t.divBy 2), target)],
      rotations [(.rotateZ p, control), (.rotateZ p, target)]⟩

end TwoGate
end QuantumOps
