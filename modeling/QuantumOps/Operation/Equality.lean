import QuantumOps.Operation.Basic

/-!
Equality of operations: the same record in the same place, with equal fields. Numbers are compared
as numbers, so that the two zeros are equal and a number without a value equals nothing. -/
namespace QuantumOps

variable {R : Type} [Numeric R]

namespace Record

def beq : Record R → Record R → Bool
  | singleQubit g q, singleQubit g' q' => g.beq g' && q == q'
  | twoQubit g c t, twoQubit g' c' t' => g.beq g' && c == c' && t == t'
  | noise k q s, noise k' q' s' => k.beq k' && q == q' && s == s'
  | setNumberOfMeasurements n r, setNumberOfMeasurements n' r' => n == n' && r == r'
  | setStateVector v, setStateVector v' => v == v'
  | setDensityMatrix m, setDensityMatrix m' => m == m'
  | repeatGate n, repeatGate n' => n == n'
  | overrotation g qs a v, overrotation g' qs' a' v' => g == g' && qs == qs' && a == a' && v == v'
  | boostNoise s, boostNoise s' => s == s'
  | stopParallelBlock qs s, stopParallelBlock qs' s' => qs == qs' && s == s'
  | globalPhase s, globalPhase s' => s == s'
  | sleep qs s, sleep qs' s' => qs == qs' && s == s'
  | activeReset q, activeReset q' => q == q'
  | startDecompositionBlock qs d, startDecompositionBlock qs' d' => qs == qs' && d == d'
  | stopDecompositionBlock qs, stopDecompositionBlock qs' => qs == qs'
  | changeDevice ts n e, changeDevice ts' n' e' => ts == ts' && n == n' && e == e'
  | measureQubit q r i, measureQubit q' r' i' => q == q' && r == r' && i == i'
  | readState k r, readState k' r' => k == k' && r == r'
  | repeatedMeasurement r n d, repeatedMeasurement r' n' d' => r == r' && n == n' && d == d'
  | definition k n l o, definition k' n' l' o' => k == k' && n == n' && l == l' && o == o'
  | inputSymbolic n x, inputSymbolic n' x' => n == n' && x == x'
  | _, _ => false

instance : BEq (Record R) := ⟨beq⟩

end Record

namespace Block

def beq : Block R → Block R → Bool
  | conditional r i, conditional r' i' => r == r' && i == i'
  | loop s, loop s' => s == s'
  | controlled q, controlled q' => q == q'
  | pauliProduct d r, pauliProduct d' r' => d == d' && r == r'
  | readState k r, readState k' r' => k == k' && r == r'
  | _, _ => false

instance : BEq (Block R) := ⟨beq⟩

end Block

mutual

def Operation.beq : Operation R → Operation R → Bool
  | .record r, .record r' => r == r'
  | .block b body, .block b' body' => b == b' && Circuit.beq body body'
  | .annotated op a, .annotated op' a' => op.beq op' && a == a'
  | _, _ => false

def Circuit.beq : List (Operation R) → List (Operation R) → Bool
  | [], [] => true
  | op :: rest, op' :: rest' => op.beq op' && Circuit.beq rest rest'
  | _, _ => false

end

instance : BEq (Operation R) := ⟨Operation.beq⟩

end QuantumOps
