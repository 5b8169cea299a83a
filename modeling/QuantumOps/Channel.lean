import QuantumOps.Matrix
import QuantumOps.Scalar

/-!
Noise on one qubit over a gate time. A channel acts on density matrices written row by row as
vectors of four entries. Four kinds of noise have their channel in closed form; general noise is the
exponential of a generator, a sum over nine pairs of the operators that lower, raise and dephase. -/
namespace QuantumOps

/-- The kinds of noise with their rates. -/
inductive Noise (R : Type)
  | damping (rate : Scalar R)
  | depolarising (rate : Scalar R)
  | dephasing (rate : Scalar R)
  | random (depolarisingRate dephasingRate : Scalar R)
  | general (rates : Triple (Triple R))
  deriving Repr

/-- A channel, or the generator of which it is the exponential. -/
inductive Superoperator (R : Type)
  | closed (channel : Matrix4 R)
  | exponential (generator : Matrix4 R)
  deriving Repr

namespace Noise

section
variable {R : Type}

def name : Noise R → String
  | damping _ => "PragmaDamping"
  | depolarising _ => "PragmaDepolarising"
  | dephasing _ => "PragmaDephasing"
  | random .. => "PragmaRandomNoise"
  | general _ => "PragmaGeneralNoise"

/-- General noise has no single probability. -/
def hasProbability : Noise R → Bool
  | general _ => false
  | _ => true

/-- The symbolic rates in their order, each with its label. -/
def rates : Noise R → List (String × Scalar R)
  | damping r | depolarising r | dephasing r => [("rate", r)]
  | random r s => [("depolarising_rate", r), ("dephasing_rate", s)]
  | general _ => []

/-- Changes the symbolic rates one after another; the first failure ends it. -/
def traverse {ε : Type} (f : Scalar R → Except ε (Scalar R)) : Noise R → Except ε (Noise R)
  | damping r => return damping (← f r)
  | depolarising r => return depolarising (← f r)
  | dephasing r => return dephasing (← f r)
  | random r s => return random (← f r) (← f s)
  | general rates => return general rates

end

variable {R : Type} [Numeric R]

open Numeric (exp)

/-- Noise of one kind with equal rates is equal. -/
def beq : Noise R → Noise R → Bool
  | general m, general n => m == n
  | c, d => c.name == d.name && c.rates.map Prod.snd == d.rates.map Prod.snd

/-- The probability of a decay within time `t`. -/
def dampingProbability (t rate : R) : R := 1 - exp (-t * rate)

/-- The probability of any of the three flips within time `t`. -/
def depolarisingProbability (t rate : R) : R := 3 / 4 * (1 - exp (-t * rate))

/-- The probability of a phase flip within time `t`. -/
def dephasingProbability (t rate : R) : R := 1 / 2 * (1 - exp (-2 * t * rate))

/-- The probability that either of two independent events happens. -/
def either (p q : R) : R := 1 - (1 - p) * (1 - q)

def dampingChannel (t rate : R) : Matrix4 R :=
  let full := exp (-t * rate)
  let half := exp (-t * rate / 2)
  ⟨⟨1, 0, 0, 1 - full⟩, ⟨0, half, 0, 0⟩, ⟨0, 0, half, 0⟩, ⟨0, 0, 0, full⟩⟩

def depolarisingChannel (t rate : R) : Matrix4 R :=
  let d := exp (-t * rate)
  let keep := 1 / 2 + 1 / 2 * d
  let flip := 1 / 2 - 1 / 2 * d
  ⟨⟨keep, 0, 0, flip⟩, ⟨0, d, 0, 0⟩, ⟨0, 0, d, 0⟩, ⟨flip, 0, 0, keep⟩⟩

/-- The channel that flips the phase with probability `p`. -/
def dephasingChannel (p : R) : Matrix4 R :=
  ⟨⟨1, 0, 0, 0⟩, ⟨0, 1 - 2 * p, 0, 0⟩, ⟨0, 0, 1 - 2 * p, 0⟩, ⟨0, 0, 0, 1⟩⟩

/-- The generators of general noise, one for each pair of the operators that lower, raise and
dephase. -/
def generators : Triple (Triple (Matrix4 R)) :=
  let h : R := 1 / 2
  let k : R := 3 / 2
  ⟨⟨⟨⟨0, 0, 0, 1⟩, ⟨0, -h, 0, 0⟩, ⟨0, 0, -h, 0⟩, ⟨0, 0, 0, -1⟩⟩,
      ⟨⟨0, 0, 0, 0⟩, ⟨0, 0, 1, 0⟩, ⟨0, 0, 0, 0⟩, ⟨0, 0, 0, 0⟩⟩,
      ⟨⟨0, 0, h, 0⟩, ⟨-h, 0, 0, -k⟩, ⟨0, 0, 0, 0⟩, ⟨0, 0, -h, 0⟩⟩⟩,
    ⟨⟨⟨0, 0, 0, 0⟩, ⟨0, 0, 0, 0⟩, ⟨0, 1, 0, 0⟩, ⟨0, 0, 0, 0⟩⟩,
      ⟨⟨-1, 0, 0, 0⟩, ⟨0, -h, 0, 0⟩, ⟨0, 0, -h, 0⟩, ⟨1, 0, 0, 0⟩⟩,
      ⟨⟨0, h, 0, 0⟩, ⟨0, 0, 0, 0⟩, ⟨k, 0, 0, h⟩, ⟨0, -h, 0, 0⟩⟩⟩,
    ⟨⟨⟨0, h, 0, 0⟩, ⟨0, 0, 0, 0⟩, ⟨-h, 0, 0, -k⟩, ⟨0, -h, 0, 0⟩⟩,
      ⟨⟨0, 0, h, 0⟩, ⟨k, 0, 0, h⟩, ⟨0, 0, 0, 0⟩, ⟨0, 0, -h, 0⟩⟩,
      ⟨⟨0, 0, 0, 0⟩, ⟨0, -2, 0, 0⟩, ⟨0, 0, -2, 0⟩, ⟨0, 0, 0, 0⟩⟩⟩⟩

/-- The generator of general noise over time `t`: the generators weighted by the rates, added up
row by row. -/
def generator (t : R) (rates : Triple (Triple R)) : Matrix4 R :=
  let pairs := (rates.toList.zip generators.toList).flatMap fun (r, g) => r.toList.zip g.toList
  pairs.foldl (fun sum (rate, g) => sum.add (Matrix4.scale (t * rate) g)) Matrix4.zero

/-- The probability of the noise over a gate time. -/
def probability (gateTime : Scalar R) : Noise R → Except Expression.Error (Option R)
  | damping r => return some (dampingProbability (← gateTime.toNumber) (← r.toNumber))
  | depolarising r => return some (depolarisingProbability (← gateTime.toNumber) (← r.toNumber))
  | dephasing r => return some (dephasingProbability (← gateTime.toNumber) (← r.toNumber))
  | random r s => do
    let t ← gateTime.toNumber
    let p := depolarisingProbability t (← r.toNumber)
    let q := dephasingProbability t (← s.toNumber)
    return some (either p q)
  | general _ => return none

/-- The channel of the noise over a gate time. That of random noise is its dephasing. -/
def superoperator (gateTime : Scalar R) : Noise R → Except Expression.Error (Superoperator R)
  | damping r => return .closed (dampingChannel (← gateTime.toNumber) (← r.toNumber))
  | depolarising r => return .closed (depolarisingChannel (← gateTime.toNumber) (← r.toNumber))
  | dephasing r | random _ r =>
    return .closed (dephasingChannel (dephasingProbability (← gateTime.toNumber) (← r.toNumber)))
  | general rates => return .exponential (generator (← gateTime.toNumber) rates)

end Noise
end QuantumOps
