import QuantumOps.Gate.Parts
import QuantumOps.Operation.View
import QuantumOps.Proofs.Gate.Parameters
import QuantumOps.Proofs.Operation.Equality
import QuantumOps.Proofs.Scalar.Substitution

/-! Parts and powers of gates, derived before and after the symbolic parameters are given values.
The two ways agree for an angle that is a number or one product, and for any angle in parentheses.
-/
namespace QuantumOps
open Expression (Phrase Variables)
open Scalar (number Follows)

variable {R : Type} [Numeric R] {vars : Variables R}

section
variable [LawfulNumeric R]

theorem forall₂_agrees {p : Phrase} {xs ys : List (Scalar R)}
    (h : List.Forall₂ (Follows vars p) xs ys) (hr : ∀ y ∈ ys, y.IsFinite) :
    List.Forall₂ (fun x y => Agrees (x.substitute vars) y) xs ys := by
  induction h with
  | nil => exact .nil
  | cons hxy _ ih =>
    obtain ⟨hy, hys⟩ := List.forall_mem_cons.mp hr
    exact .cons (hxy.agrees hy) (ih hys)

/-- Of parameters that have values, only one that is changed decides whether they agree. -/
theorem forall₂_agrees_cons_iff {k : Scalar R → Scalar R} {x x' : Scalar R}
    {rest : List (Scalar R)} (hn : ∀ s ∈ rest, s.IsFinite)
    (hk : ∀ s ∈ rest, s.substitute vars = .ok (k s)) :
    List.Forall₂ (fun s s' => Agrees (s.substitute vars) s') (x :: rest) (x' :: rest.map k) ↔
      Agrees (x.substitute vars) x' := by
  rw [List.forall₂_cons, List.forall₂_map_right_iff, List.forall₂_same]
  refine and_iff_left fun s hs => ⟨k s, hk s hs, ?_⟩
  obtain ⟨a, ha, hka⟩ := Scalar.substitute_eq_ok.mp (hk s hs)
  rw [hka]
  exact LawfulNumeric.beq_self (Scalar.isFinite_of_evaluate (hn s hs) ha)

end

omit [Numeric R] in
theorem GateParts.forall₂_toList {r : Scalar R → Scalar R → Prop} {P Q : GateParts R}
    (halphaR : r P.alphaR Q.alphaR) (halphaI : r P.alphaI Q.alphaI) (hbetaR : r P.betaR Q.betaR)
    (hbetaI : r P.betaI Q.betaI) (hphase : r P.globalPhase Q.globalPhase) :
    List.Forall₂ r P.toList Q.toList :=
  .cons halphaR (.cons halphaI (.cons hbetaR (.cons hbetaI (.cons hphase .nil))))

namespace SingleGate

variable {g g' : SingleGate (Scalar R)} {q : Nat}

/-- Parentheses around its parameters do not change what a gate becomes. -/
theorem grouped_traverse (hn : ∀ s ∈ g.parameters.map Prod.snd, s.IsFinite)
    (h : g.traverse (Scalar.substitute vars) = .ok g') :
    (g.map Scalar.grouped).traverse (Scalar.substitute vars) = .ok g' := by
  obtain ⟨k, hk, rfl⟩ := traverse_eq_ok_iff.mp h
  rw [traverse_map]
  exact traverse_eq_ok fun s hs => Scalar.grouped_substitute (hn s hs) (hk s hs)

theorem grouped_fits (hn : ∀ s ∈ g.parameters.map Prod.snd, s.IsFinite)
    (h : g.traverse (Scalar.substitute vars) = .ok g') :
    ∀ s ∈ (g.map Scalar.grouped).parameters.map Prod.snd, s.Fits .primary := by
  obtain ⟨k, hk, -⟩ := traverse_eq_ok_iff.mp h
  rw [parameters_map, List.forall_mem_map]
  exact fun s hs => Scalar.grouped_fits (Scalar.fits_sum (hn s hs) (hk s hs))

theorem substitute_record {op : Operation R} :
    (Operation.record (.singleQubit g q)).substitute vars = .ok op ↔
      ∃ g', g.traverse (Scalar.substitute vars) = .ok g' ∧ op = .record (.singleQubit g' q) := by
  rw [Operation.substitute, Operation.traverse, Record.traverse]
  simp only [bind_eq_ok, pure, Except.pure, Except.ok.injEq]
  constructor
  · rintro ⟨_, ⟨g', hg, rfl⟩, rfl⟩
    exact ⟨g', hg, rfl⟩
  · rintro ⟨g', hg, rfl⟩
    exact ⟨_, ⟨g', hg, rfl⟩, rfl⟩

/-- Gates of one kind agree in an operation just when their parameters do. -/
theorem agrees_iff (hname : g.name = g'.name) :
    Agrees ((Operation.record (.singleQubit g q)).substitute vars)
        (.record (.singleQubit g' q)) ↔
      List.Forall₂ (fun s s' => Agrees (s.substitute vars) s') (g.parameters.map Prod.snd)
        (g'.parameters.map Prod.snd) := by
  constructor
  · rintro ⟨op, hop, hbeq⟩
    obtain ⟨_, hg, rfl⟩ := substitute_record.mp hop
    obtain ⟨k, hk, rfl⟩ := traverse_eq_ok_iff.mp hg
    have hg : (g.map k).beq g' && q == q := hbeq
    rw [Bool.and_eq_true, beq, Bool.and_eq_true, parameters_map] at hg
    exact forall₂_agrees_iff.mpr ⟨k, hk, hg.1.2⟩
  · intro h
    obtain ⟨k, hk, hbeq⟩ := forall₂_agrees_iff.mp h
    refine ⟨_, substitute_record.mpr ⟨g.map k, traverse_eq_ok hk, rfl⟩, ?_⟩
    have hg : (g.map k).beq g' := by
      rw [beq, name_map, parameters_map, hname, hbeq, beq_self_eq_true]
      rfl
    change ((g.map k).beq g' && q == q) = true
    rw [hg, beq_self_eq_true]
    rfl

variable [RegularNumeric R]

/-- The parts of a gate follow those of the gate with values for its parameters, if its angle is a
number or one product. -/
theorem parts_follow (hfits : ∀ t, g.angle? = some t → t.Fits .product)
    (hn : ∀ s ∈ g.parameters.map Prod.snd, s.IsFinite)
    (h : g.traverse (Scalar.substitute vars) = .ok g') :
    List.Forall₂ (Follows vars .sum) g.parts.toList g'.parts.toList := by
  obtain ⟨k, hk, rfl⟩ := traverse_eq_ok_iff.mp h
  have hs : ∀ s ∈ g.parameters.map Prod.snd, Follows vars .sum s (k s) :=
    fun s hs => (Scalar.fits_sum (hn s hs) (hk s hs)).follows (hk s hs)
  have hhalf : ∀ t, g.angle? = some t → Follows vars .unary (t.divBy 2) ((k t).divBy 2) :=
    fun t ht => ((hfits t ht).follows (hk t (mem_parameters_of_angle? ht))).divBy (by simp)
  have hsin : ∀ t, g.angle? = some t →
      Follows vars .unary (t.divBy 2).sin ((k t).divBy 2).sin := fun t ht => (hhalf t ht).sin
  have hneg : ∀ t, g.angle? = some t →
      Follows vars .unary (-(t.divBy 2).sin) (-((k t).divBy 2).sin) := fun t ht => (hsin t ht).neg
  cases g with
  | general ar ai br bi g =>
    simp only [parameters, List.map_cons, List.map_nil, List.forall_mem_cons] at hs
    obtain ⟨har, hai, hbr, hbi, hg, -⟩ := hs
    exact GateParts.forall₂_toList har hai hbr hbi hg
  | rotateZ t =>
    exact GateParts.forall₂_toList (hhalf t rfl).cos (hsin t rfl).neg .number .number .number
  | rotateX t =>
    exact GateParts.forall₂_toList (hhalf t rfl).cos .number .number (hsin t rfl).neg .number
  | rotateY t =>
    exact GateParts.forall₂_toList (hhalf t rfl).cos .number (hhalf t rfl).sin .number .number
  | phaseShiftState1 t =>
    exact GateParts.forall₂_toList (hhalf t rfl).cos (hsin t rfl).neg .number .number
      ((hhalf t rfl).mono (by decide))
  | phaseShiftState0 t =>
    exact GateParts.forall₂_toList (hhalf t rfl).cos (hhalf t rfl).sin .number .number
      ((hhalf t rfl).mono (by decide))
  | rotateAroundSphericalAxis t polar azimuth =>
    simp only [parameters, List.map_cons, List.map_nil, List.forall_mem_cons] at hs
    obtain ⟨-, hpolar, hazimuth, -⟩ := hs
    exact GateParts.forall₂_toList (hhalf t rfl).cos ((hneg t rfl).mul hpolar.cos)
      (((hsin t rfl).mul (r := .unary) hazimuth.sin).mul hpolar.sin)
      (((hneg t rfl).mul (r := .unary) hazimuth.cos).mul hpolar.sin) .number
  | rotateXY t azimuth =>
    simp only [parameters, List.map_cons, List.map_nil, List.forall_mem_cons] at hs
    obtain ⟨-, hazimuth, -⟩ := hs
    exact GateParts.forall₂_toList (hhalf t rfl).cos .number ((hsin t rfl).mul hazimuth.sin)
      ((hneg t rfl).mul hazimuth.cos) .number
  | pauliX | pauliY | pauliZ | sqrtPauliX | invSqrtPauliX | hadamard | sGate | tGate =>
    exact GateParts.forall₂_toList .number .number .number .number .number

theorem parts_agree (hfits : ∀ t, g.angle? = some t → t.Fits .product)
    (hn : ∀ s ∈ g.parameters.map Prod.snd, s.IsFinite)
    (h : g.traverse (Scalar.substitute vars) = .ok g')
    (hr : ∀ s ∈ g'.parts.toList, s.IsFinite) :
    Agrees (g.parts.toList.mapM (Scalar.substitute vars)) g'.parts.toList :=
  .mapM (forall₂_agrees (parts_follow hfits hn h) hr)

end SingleGate

namespace TwoGate

variable {g g' : TwoGate (Scalar R)} {c t : Nat}

theorem grouped_traverse (hn : ∀ s ∈ g.parameters.map Prod.snd, s.IsFinite)
    (h : g.traverse (Scalar.substitute vars) = .ok g') :
    (g.map Scalar.grouped).traverse (Scalar.substitute vars) = .ok g' := by
  obtain ⟨k, hk, rfl⟩ := traverse_eq_ok_iff.mp h
  rw [traverse_map]
  exact traverse_eq_ok fun s hs => Scalar.grouped_substitute (hn s hs) (hk s hs)

theorem grouped_fits (hn : ∀ s ∈ g.parameters.map Prod.snd, s.IsFinite)
    (h : g.traverse (Scalar.substitute vars) = .ok g') :
    ∀ s ∈ (g.map Scalar.grouped).parameters.map Prod.snd, s.Fits .primary := by
  obtain ⟨k, hk, -⟩ := traverse_eq_ok_iff.mp h
  rw [parameters_map, List.forall_mem_map]
  exact fun s hs => Scalar.grouped_fits (Scalar.fits_sum (hn s hs) (hk s hs))

theorem substitute_record {op : Operation R} :
    (Operation.record (.twoQubit g c t)).substitute vars = .ok op ↔
      ∃ g', g.traverse (Scalar.substitute vars) = .ok g' ∧ op = .record (.twoQubit g' c t) := by
  rw [Operation.substitute, Operation.traverse, Record.traverse]
  simp only [bind_eq_ok, pure, Except.pure, Except.ok.injEq]
  constructor
  · rintro ⟨_, ⟨g', hg, rfl⟩, rfl⟩
    exact ⟨g', hg, rfl⟩
  · rintro ⟨g', hg, rfl⟩
    exact ⟨_, ⟨g', hg, rfl⟩, rfl⟩

theorem agrees_iff (hname : g.name = g'.name) :
    Agrees ((Operation.record (.twoQubit g c t)).substitute vars)
        (.record (.twoQubit g' c t)) ↔
      List.Forall₂ (fun s s' => Agrees (s.substitute vars) s') (g.parameters.map Prod.snd)
        (g'.parameters.map Prod.snd) := by
  constructor
  · rintro ⟨op, hop, hbeq⟩
    obtain ⟨_, hg, rfl⟩ := substitute_record.mp hop
    obtain ⟨k, hk, rfl⟩ := traverse_eq_ok_iff.mp hg
    have hg : (g.map k).beq g' && c == c && t == t := hbeq
    rw [Bool.and_eq_true, Bool.and_eq_true, beq, Bool.and_eq_true, parameters_map] at hg
    exact forall₂_agrees_iff.mpr ⟨k, hk, hg.1.1.2⟩
  · intro h
    obtain ⟨k, hk, hbeq⟩ := forall₂_agrees_iff.mp h
    refine ⟨_, substitute_record.mpr ⟨g.map k, traverse_eq_ok hk, rfl⟩, ?_⟩
    have hg : (g.map k).beq g' := by
      rw [beq, name_map, parameters_map, hname, hbeq, beq_self_eq_true]
      rfl
    change ((g.map k).beq g' && c == c && t == t) = true
    rw [hg, beq_self_eq_true, beq_self_eq_true]
    rfl

end TwoGate
end QuantumOps
