import Mathlib
import QuantumOps.Matrix
import QuantumOps.Proofs.Exact.Real

/-! Amplitudes as complex numbers and small matrices as matrices, with real numbers as numbers. The
first of two qubits is the first component of an index, which makes it the more significant one. -/
namespace QuantumOps
open Complex (I)

/-- The states of two qubits. -/
abbrev Both := Fin 2 × Fin 2

def Pair.get {α : Type} (v : Pair α) (i : Fin 2) : α := ![v.zero, v.one] i

def Quad.get {α : Type} (v : Quad α) (i : Both) : α :=
  ![![v.zeroZero, v.zeroOne], ![v.oneZero, v.oneOne]] i.1 i.2

theorem Pair.ext_get {α : Type} {v w : Pair α} (h : ∀ i, v.get i = w.get i) : v = w := by
  obtain ⟨a, b⟩ := v
  obtain ⟨a', b'⟩ := w
  obtain rfl : a = a' := h 0
  obtain rfl : b = b' := h 1
  rfl

theorem Quad.ext_get {α : Type} {v w : Quad α} (h : ∀ i, v.get i = w.get i) : v = w := by
  obtain ⟨a, b, c, d⟩ := v
  obtain ⟨a', b', c', d'⟩ := w
  obtain rfl : a = a' := h (0, 0)
  obtain rfl : b = b' := h (0, 1)
  obtain rfl : c = c' := h (1, 0)
  obtain rfl : d = d' := h (1, 1)
  rfl

/-- The point of the unit circle at an angle. -/
noncomputable def turn (angle : ℝ) : ℂ := Complex.exp (angle * I)

theorem turn_eq (angle : ℝ) : turn angle = Real.cos angle + Real.sin angle * I := by
  rw [turn, Complex.exp_mul_I, Complex.ofReal_cos, Complex.ofReal_sin]

@[simp] theorem turn_zero : turn 0 = 1 := by simp [turn]

@[simp] theorem turn_re (a : ℝ) : (turn a).re = Real.cos a := by
  simp [turn_eq, -Complex.ofReal_cos, -Complex.ofReal_sin]

@[simp] theorem turn_im (a : ℝ) : (turn a).im = Real.sin a := by
  simp [turn_eq, -Complex.ofReal_cos, -Complex.ofReal_sin]

theorem turn_add (a b : ℝ) : turn (a + b) = turn a * turn b := by
  simp [turn, add_mul, Complex.exp_add]

theorem turn_neg (a : ℝ) : turn (-a) = (starRingEnd ℂ) (turn a) := by
  simp [turn, ← Complex.exp_conj]

namespace Amplitude

def toComplex (z : Amplitude ℝ) : ℂ := ⟨z.re, z.im⟩

@[simp] theorem toComplex_mk (x y : ℝ) : toComplex ⟨x, y⟩ = x + y * I :=
  Complex.mk_eq_add_mul_I x y

@[simp] theorem toComplex_ofReal (x : ℝ) : (ofReal x).toComplex = x := by simp [ofReal]

@[simp] theorem toComplex_zero : (0 : Amplitude ℝ).toComplex = 0 := by
  rw [show (0 : Amplitude ℝ) = ofReal (Numeric.ofNat 0) from rfl]
  simp

@[simp] theorem toComplex_one : (1 : Amplitude ℝ).toComplex = 1 := by
  rw [show (1 : Amplitude ℝ) = ofReal (Numeric.ofNat 1) from rfl]
  simp

@[simp] theorem toComplex_i : (i : Amplitude ℝ).toComplex = I := by simp [i]

@[simp] theorem toComplex_neg (z : Amplitude ℝ) : (-z).toComplex = -z.toComplex := rfl

theorem toComplex_phase (angle : ℝ) : (phase angle).toComplex = turn angle := by
  rw [turn_eq]
  exact toComplex_mk _ _

theorem toComplex_conj (z : Amplitude ℝ) : z.conj.toComplex = (starRingEnd ℂ) z.toComplex := rfl

/-- No real number is infinite, so that the product is the product by parts. -/
theorem toComplex_mul (z w : Amplitude ℝ) : (z * w).toComplex = z.toComplex * w.toComplex := by
  have htimes : z * w = z.times w := by
    change mul z w = _
    simp [mul, isNaN]
  rw [htimes]
  rfl

end Amplitude

/-- The matrix of a gate on one qubit. -/
def Pair.toMatrix (m : Matrix2 (Amplitude ℝ)) : Matrix (Fin 2) (Fin 2) ℂ :=
  Matrix.of fun i j => ((m.get i).get j).toComplex

/-- The matrix of a gate on two qubits. -/
def Quad.toMatrix (m : Matrix4 (Amplitude ℝ)) : Matrix Both Both ℂ :=
  Matrix.of fun i j => ((m.get i).get j).toComplex

end QuantumOps
