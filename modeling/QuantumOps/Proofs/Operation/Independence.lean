import QuantumOps.Proofs.Operation.Outline
import QuantumOps.Proofs.Operation.Values

/-! Substitution changes the scalars of an operation and remapping its qubits, so that neither is in
the way of the other: each succeeds before the other just when it does after, and both orders give
the same. -/
namespace QuantumOps
open Expression (Variables)
open Scalar (number symbol)

section
variable {R : Type} {f : Nat → Nat} {k : Scalar R → Scalar R} {m : Mapping}

theorem Record.mapScalars_rename (r : Record R) :
    (r.rename f).mapScalars k = (r.mapScalars k).rename f := by
  cases r with
  | repeatedMeasurement readout number indices => cases indices <;> rfl
  | _ => rfl

theorem Block.mapScalars_rename (b : Block R) :
    (b.rename f).mapScalars k = (b.mapScalars k).rename f := by
  cases b <;> rfl

mutual

theorem Operation.mapScalars_rename : ∀ op : Operation R,
    (op.rename f).mapScalars k = (op.mapScalars k).rename f
  | .record r => congrArg Operation.record r.mapScalars_rename
  | .block b body => by
    simp only [Operation.rename, Operation.mapScalars, b.mapScalars_rename,
      Circuit.mapScalars_rename body]
  | .annotated op note => by
    simp only [Operation.rename, Operation.mapScalars, op.mapScalars_rename]

theorem Circuit.mapScalars_rename : ∀ c : List (Operation R),
    Circuit.mapScalars k (Circuit.rename f c) = Circuit.rename f (Circuit.mapScalars k c)
  | [] => rfl
  | op :: rest => by
    simp only [Circuit.rename, Circuit.mapScalars, op.mapScalars_rename,
      Circuit.mapScalars_rename rest]

end

/-- What an operation asks of a mapping has nothing to do with its scalars. -/
theorem Mapping.permits_mapScalars {op : Operation R} :
    m.Permits (op.mapScalars k) ↔ m.Permits op := by
  cases op with
  | record r =>
    cases r with
    | twoQubit g c t => exact permits_twoQubit.trans permits_twoQubit.symm
    | singleQubit | noise | boostNoise | stopParallelBlock | globalPhase | sleep =>
      rw [Operation.mapScalars, Record.mapScalars, permits_iff_mapped (by simp) (by simp) rfl,
        permits_iff_mapped (by simp) (by simp) rfl]
      rfl
    | _ => rfl
  | block b body =>
    rw [Operation.mapScalars, permits_iff_mapped (by simp) (by simp) rfl,
      permits_iff_mapped (by simp) (by simp) rfl]
    cases b <;> rfl
  | annotated op note => exact iff_of_true (permits_annotated _ note) (permits_annotated op note)

namespace Operation

variable {op op' : Operation R}

theorem remap_mapScalars : (op.mapScalars k).remap m = .ok op' ↔
    ∃ a, op.remap m = .ok a ∧ op' = a.mapScalars k := by
  rw [remap_eq_ok, op.nested_mapScalars, List.forall_mem_map]
  simp only [Mapping.permits_mapScalars]
  constructor
  · rintro ⟨hpermits, rfl⟩
    exact ⟨op.rename m.keep, remap_eq_ok.mpr ⟨hpermits, rfl⟩, op.mapScalars_rename.symm⟩
  · rintro ⟨a, ha, rfl⟩
    obtain ⟨hpermits, rfl⟩ := remap_eq_ok.mp ha
    exact ⟨hpermits, op.mapScalars_rename⟩

variable [Numeric R] {vars : Variables R}

theorem substitute_rename : (op.rename f).substitute vars = .ok op' ↔
    ∃ a, op.substitute vars = .ok a ∧ op' = a.rename f := by
  constructor
  · intro h
    obtain ⟨value, hvalue, -, rfl⟩ := exists_values_of_substitute h
    rw [op.scalars_rename] at hvalue
    exact ⟨_, substitute_of_values hvalue, op.mapScalars_rename⟩
  · rintro ⟨a, ha, rfl⟩
    obtain ⟨value, hvalue, -, rfl⟩ := exists_values_of_substitute ha
    rw [← op.mapScalars_rename]
    rw [← op.scalars_rename (f := f)] at hvalue
    exact substitute_of_values hvalue

/-- Substitution and then remapping succeed just when each does on the operation as it is. -/
theorem substitute_remap_eq_ok :
    (∃ a, op.substitute vars = .ok a ∧ a.remap m = .ok op') ↔
      ∃ a b, op.substitute vars = .ok a ∧ op.remap m = .ok b ∧ op' = a.rename m.keep := by
  constructor
  · rintro ⟨a, ha, hop'⟩
    obtain ⟨value, -, -, rfl⟩ := exists_values_of_substitute ha
    obtain ⟨b, hb, -⟩ := remap_mapScalars.mp hop'
    exact ⟨_, b, ha, hb, (remap_eq_ok.mp hop').2⟩
  · rintro ⟨a, b, ha, hb, rfl⟩
    refine ⟨a, ha, ?_⟩
    obtain ⟨value, -, -, rfl⟩ := exists_values_of_substitute ha
    obtain ⟨-, rfl⟩ := remap_eq_ok.mp hb
    exact remap_mapScalars.mpr ⟨_, hb, op.mapScalars_rename.symm⟩

theorem remap_substitute_eq_ok :
    (∃ b, op.remap m = .ok b ∧ b.substitute vars = .ok op') ↔
      ∃ a b, op.substitute vars = .ok a ∧ op.remap m = .ok b ∧ op' = a.rename m.keep := by
  constructor
  · rintro ⟨b, hb, hop'⟩
    obtain ⟨-, rfl⟩ := remap_eq_ok.mp hb
    obtain ⟨a, ha, rfl⟩ := substitute_rename.mp hop'
    exact ⟨a, _, ha, hb, rfl⟩
  · rintro ⟨a, b, ha, hb, rfl⟩
    refine ⟨b, hb, ?_⟩
    obtain ⟨-, rfl⟩ := remap_eq_ok.mp hb
    exact substitute_rename.mpr ⟨a, ha, rfl⟩

theorem alike_substitute (h : op.substitute vars = .ok op') : op.Alike op' := by
  obtain ⟨value, -, -, rfl⟩ := exists_values_of_substitute h
  exact .intro op.tags_mapScalars op.outline_mapScalars

omit [Numeric R] in
theorem alike_remap (h : op.remap m = .ok op') : op.Alike op' := by
  obtain ⟨-, rfl⟩ := remap_eq_ok.mp h
  exact .intro op.tags_rename op.outline_rename

/-- Substitution and remapping do not depend on each other. In either order they succeed just when
both do on the operation as it is, and give the same. Each keeps what kind of operation there is at
every place, substitution keeps all but the scalars and remapping all but the qubits, and what is
measured of a remapped qubit goes where it went before. -/
theorem substitute_remap_independent (vars : Variables R) (m : Mapping) (op : Operation R) :
    ((∃ a b, op.substitute vars = .ok a ∧ a.remap m = .ok b) ↔
      (∃ a, op.substitute vars = .ok a) ∧ ∃ b, op.remap m = .ok b) ∧
    ((∃ a b, op.remap m = .ok a ∧ a.substitute vars = .ok b) ↔
      (∃ a, op.substitute vars = .ok a) ∧ ∃ b, op.remap m = .ok b) ∧
    (∀ op', (∃ a, op.substitute vars = .ok a ∧ a.remap m = .ok op') ↔
      ∃ b, op.remap m = .ok b ∧ b.substitute vars = .ok op') ∧
    (∀ a, op.substitute vars = .ok a → op.Alike a ∧ a.involved = op.involved ∧
      a.withoutScalars = op.withoutScalars) ∧
    ∀ b, op.remap m = .ok b → op.Alike b ∧ b.isParametrized = op.isParametrized ∧
      b.scalars = op.scalars ∧ b.withoutQubits = op.withoutQubits ∧
      List.Forall₂ (fun n n' => ∀ p index, n'.readoutIndex? p = some index ↔
        ∃ q, n.readoutIndex? q = some index ∧ m.keep q = p) op.nested b.nested := by
  refine ⟨?_, ?_, ?_, ?_, ?_⟩
  · constructor
    · rintro ⟨a, op', ha, hop'⟩
      obtain ⟨a, b, ha, hb, -⟩ := substitute_remap_eq_ok.mp ⟨a, ha, hop'⟩
      exact ⟨⟨a, ha⟩, b, hb⟩
    · rintro ⟨⟨a, ha⟩, b, hb⟩
      obtain ⟨a, ha, hop'⟩ := substitute_remap_eq_ok.mpr ⟨a, b, ha, hb, rfl⟩
      exact ⟨a, _, ha, hop'⟩
  · constructor
    · rintro ⟨b, op', hb, hop'⟩
      obtain ⟨a, b, ha, hb, -⟩ := remap_substitute_eq_ok.mp ⟨b, hb, hop'⟩
      exact ⟨⟨a, ha⟩, b, hb⟩
    · rintro ⟨⟨a, ha⟩, b, hb⟩
      obtain ⟨b, hb, hop'⟩ := remap_substitute_eq_ok.mpr ⟨a, b, ha, hb, rfl⟩
      exact ⟨b, _, hb, hop'⟩
  · intro op'
    exact substitute_remap_eq_ok.trans remap_substitute_eq_ok.symm
  · intro a ha
    refine ⟨alike_substitute ha, ?_⟩
    obtain ⟨value, -, -, rfl⟩ := exists_values_of_substitute ha
    exact ⟨op.involved_mapScalars, op.withoutScalars_mapScalars⟩
  · intro b hb
    refine ⟨alike_remap hb, ?_⟩
    obtain ⟨hpermits, rfl⟩ := remap_eq_ok.mp hb
    refine ⟨?_, op.scalars_rename, op.withoutQubits_rename, ?_⟩
    · rw [isParametrized_eq, isParametrized_eq, op.scalars_rename]
    · rw [op.nested_rename, List.forall₂_map_right_iff, List.forall₂_same]
      intro n hn p index
      exact readoutIndex?_rename (hpermits n hn).injective

/-- A loop that turns and measures one of two qubits, with the sum as its count and angle, while the
qubits are swapped. -/
theorem substitute_remap_independent_loop :
    let loop (s : Scalar Whole) (q p : Nat) : Operation Whole :=
      .annotated (.block (.loop s) [.record (.singleQubit (.rotateX s) q),
        .record (.measureQubit q "ro" 5),
        .record (.repeatedMeasurement "ro" 10 (some (Dict.ofList [(q, 0), (p, 1)])))]) "note"
    let swap : Mapping := Dict.ofList [(0, 1), (1, 0)]
    let symbolic := loop (symbol "theta + phi") 0 1
    (∃ a, symbolic.substitute oneAndThree = .ok a ∧
      a.remap swap = .ok (loop (number (.value 4)) 1 0)) ∧
    (∃ b, symbolic.remap swap = .ok b ∧
      b.substitute oneAndThree = .ok (loop (number (.value 4)) 1 0)) ∧
    (symbolic.Alike (loop (number (.value 4)) 0 1) ∧
      (loop (number (.value 4)) 0 1).involved = symbolic.involved) ∧
    symbolic.Alike (loop (symbol "theta + phi") 1 0) ∧
      (loop (symbol "theta + phi") 1 0).scalars = symbolic.scalars := by
  intro loop swap symbolic
  have hvalue : (symbol "theta + phi").evaluate oneAndThree = .ok (.value 4) :=
    has_theta_add_phi.evaluate rfl
  have hscalars : ∀ s ∈ symbolic.scalars, s.evaluate oneAndThree = .ok (.value 4) := by
    intro s hs
    have hs : s = symbol "theta + phi" := by
      simpa [symbolic, loop, scalars, Circuit.scalars, Block.scalars, Record.scalars,
        SingleGate.parameters] using hs
    rw [hs]
    exact hvalue
  have ha : symbolic.substitute oneAndThree = .ok (loop (number (.value 4)) 0 1) :=
    substitute_of_values hscalars
  have hb : symbolic.remap swap = .ok (loop (symbol "theta + phi") 1 0) := rfl
  have hboth : (loop (number (.value 4)) 0 1).remap swap = .ok (loop (number (.value 4)) 1 0) := rfl
  obtain ⟨-, -, horder, hsubstitute, hremap⟩ :=
    substitute_remap_independent oneAndThree swap symbolic
  obtain ⟨halike, hinvolved, -⟩ := hsubstitute _ ha
  obtain ⟨halike', -, hscalars', -⟩ := hremap _ hb
  exact ⟨⟨_, ha, hboth⟩, (horder _).mp ⟨_, ha, hboth⟩, ⟨halike, hinvolved⟩, halike', hscalars'⟩

end Operation

end

end QuantumOps
