import QuantumOps.Amplitude

/-!
Small square matrices, row by row: two rows for one qubit, three for the rates of a channel, and
four for two qubits or for a channel on one. -/
namespace QuantumOps

/-- Two values, one for each state of a qubit. -/
structure Pair (α : Type) where
  zero : α
  one : α
  deriving DecidableEq, Repr

/-- Three values. -/
structure Triple (α : Type) where
  first : α
  second : α
  third : α
  deriving DecidableEq, Repr

/-- Four values, one for each state of two qubits. -/
structure Quad (α : Type) where
  zeroZero : α
  zeroOne : α
  oneZero : α
  oneOne : α
  deriving DecidableEq, Repr

variable {α β γ : Type}

def Pair.toList (v : Pair α) : List α := [v.zero, v.one]

def Pair.map (f : α → β) (v : Pair α) : Pair β := ⟨f v.zero, f v.one⟩

namespace Triple

def toList (v : Triple α) : List α := [v.first, v.second, v.third]

def map (f : α → β) (v : Triple α) : Triple β := ⟨f v.first, f v.second, f v.third⟩

instance [BEq α] : BEq (Triple α) :=
  ⟨fun v w => v.first == w.first && v.second == w.second && v.third == w.third⟩

end Triple

namespace Quad

def toList (v : Quad α) : List α := [v.zeroZero, v.zeroOne, v.oneZero, v.oneOne]

def map (f : α → β) (v : Quad α) : Quad β :=
  ⟨f v.zeroZero, f v.zeroOne, f v.oneZero, f v.oneOne⟩

def zipWith (f : α → β → γ) (v : Quad α) (w : Quad β) : Quad γ :=
  ⟨f v.zeroZero w.zeroZero, f v.zeroOne w.zeroOne, f v.oneZero w.oneZero, f v.oneOne w.oneOne⟩

end Quad

/-- Matrices of gates on one qubit. -/
abbrev Matrix2 (α : Type) := Pair (Pair α)

/-- Matrices of gates on two qubits, the control as the first, and of channels on one. -/
abbrev Matrix4 (α : Type) := Quad (Quad α)

namespace Matrix4

variable {R : Type} [Numeric R]

def zero : Matrix4 R := ⟨⟨0, 0, 0, 0⟩, ⟨0, 0, 0, 0⟩, ⟨0, 0, 0, 0⟩, ⟨0, 0, 0, 0⟩⟩

def add (m n : Matrix4 R) : Matrix4 R := Quad.zipWith (Quad.zipWith (· + ·)) m n

def scale (x : R) (m : Matrix4 R) : Matrix4 R := Quad.map (Quad.map (x * ·)) m

end Matrix4
end QuantumOps
