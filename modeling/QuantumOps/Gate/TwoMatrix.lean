import QuantumOps.Matrix
import QuantumOps.Gate.Two

/-!
The unitary matrices of gates on two qubits. The control is the more significant of the two, so
that rows and columns belong to the states 00, 01, 10 and 11 of control and target. -/
namespace QuantumOps.TwoGate

variable {R : Type} [Numeric R]

open Numeric (cos sin pi sqrtHalf)
open Amplitude (phase ofReal i)

/-- A matrix that mixes only 01 and 10, with `last` at 11. -/
def inner (a b c d : Amplitude R) (last : Amplitude R) : Matrix4 (Amplitude R) :=
  ⟨⟨1, 0, 0, 0⟩, ⟨0, a, b, 0⟩, ⟨0, c, d, 0⟩, ⟨0, 0, 0, last⟩⟩

/-- A diagonal matrix. -/
def diagonal (a b c d : Amplitude R) : Matrix4 (Amplitude R) :=
  ⟨⟨a, 0, 0, 0⟩, ⟨0, b, 0, 0⟩, ⟨0, 0, c, 0⟩, ⟨0, 0, 0, d⟩⟩

/-- A matrix that mixes 00 with 11 by `outer` and `corner`, and 01 with 10 by `same` and `cross`. -/
def crossed (outer corner same cross : Amplitude R) : Matrix4 (Amplitude R) :=
  ⟨⟨outer, 0, 0, corner⟩, ⟨0, same, cross, 0⟩, ⟨0, cross, same, 0⟩, ⟨corner, 0, 0, outer⟩⟩

/-- The entries of the interaction `exp(-i(x·XX + y·YY + z·ZZ))`. -/
structure SpinTerms (R : Type) where
  outer : Amplitude R
  corner : Amplitude R
  same : Amplitude R
  cross : Amplitude R

def spinTerms (x y z : R) : SpinTerms R :=
  let cm := cos (x - y)
  let cp := cos (x + y)
  let sm := sin (x - y)
  let sp := sin (x + y)
  let cz := cos z
  let sz := sin z
  ⟨⟨cm * cz, -cm * sz⟩, ⟨-sm * sz, -sm * cz⟩, ⟨cp * cz, cp * sz⟩, ⟨sp * sz, -sp * cz⟩⟩

/-- The matrix of the gate. -/
def matrix : TwoGate R → Matrix4 (Amplitude R)
  | cnot => ⟨⟨1, 0, 0, 0⟩, ⟨0, 1, 0, 0⟩, ⟨0, 0, 0, 1⟩, ⟨0, 0, 1, 0⟩⟩
  | swap => inner 0 1 1 0 1
  | iSwap => inner 0 i i 0 1
  | fSwap => inner 0 1 1 0 (-1)
  | sqrtISwap => inner (ofReal sqrtHalf) (i.scale sqrtHalf) (i.scale sqrtHalf) (ofReal sqrtHalf) 1
  | invSqrtISwap =>
    inner (ofReal sqrtHalf) ((-i).scale sqrtHalf) ((-i).scale sqrtHalf) (ofReal sqrtHalf) 1
  | xy t =>
    let c := ofReal (cos (t / 2))
    let s := i.scale (sin (t / 2))
    inner c s s c 1
  | controlledPhaseShift t => diagonal 1 1 1 (phase t)
  | controlledPauliY => ⟨⟨1, 0, 0, 0⟩, ⟨0, 1, 0, 0⟩, ⟨0, 0, 0, -i⟩, ⟨0, 0, i, 0⟩⟩
  | controlledPauliZ => diagonal 1 1 1 (-1)
  | molmerSorensenXX =>
    let f := ofReal sqrtHalf
    let g := (-i).scale sqrtHalf
    crossed f g f g
  | variableMSXX t =>
    let c := ofReal (cos (t / 2))
    let s := (-i).scale (sin (t / 2))
    crossed c s c s
  | givensRotation t p =>
    let c := cos t
    let s := sin t
    inner ((phase p).scale c) (ofReal s) ((phase p).scale (-s)) (ofReal c) (phase p)
  | givensRotationLittleEndian t p =>
    let c := cos t
    let s := sin t
    inner (ofReal c) (ofReal s) ((phase p).scale (-s)) ((phase p).scale c) (phase p)
  | qsim x y z =>
    let t := spinTerms x y z
    crossed t.outer t.corner t.cross t.same
  | fsim t u d =>
    ⟨⟨ofReal (cos d), 0, 0, i.scale (sin d)⟩,
      ⟨0, (-i).scale (sin t), ofReal (cos t), 0⟩,
      ⟨0, ofReal (cos t), (-i).scale (sin t), 0⟩,
      ⟨⟨-sin d * sin u, -sin d * cos u⟩, 0, 0, ⟨-cos d * cos u, cos d * sin u⟩⟩⟩
  | spinInteraction x y z =>
    let t := spinTerms x y z
    crossed t.outer t.corner t.same t.cross
  | bogoliubov re im =>
    let delta : Amplitude R := ⟨re, im⟩
    let c := ofReal (cos delta.abs)
    let s := sin delta.abs
    let a := delta.arg
    ⟨⟨c, 0, 0, ⟨-s * sin a, s * cos a⟩⟩, ⟨0, 1, 0, 0⟩, ⟨0, 0, 1, 0⟩,
      ⟨⟨s * sin a, s * cos a⟩, 0, 0, c⟩⟩
  | pmInteraction t =>
    let c := ofReal (cos t)
    let s := (-i).scale (sin t)
    inner c s s c 1
  | complexPMInteraction re im =>
    let t : Amplitude R := ⟨re, im⟩
    let c := ofReal (cos t.abs)
    let s := sin t.abs
    let a := t.arg
    inner c ⟨-s * sin a, -s * cos a⟩ ⟨s * sin a, -s * cos a⟩ c 1
  | phaseShiftedControlledZ p => diagonal 1 (phase p) (phase p) (phase (2 * p + pi))
  | phaseShiftedControlledPhase t p => diagonal 1 (phase p) (phase p) (phase (2 * p + t))

end QuantumOps.TwoGate
