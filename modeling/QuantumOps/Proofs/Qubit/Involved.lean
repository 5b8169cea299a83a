import QuantumOps.Qubit.Involved

/-! The laws of joining what is involved. They hold as well where the answer is kept as a kind and
a set of qubits beside it: not for every such pair, but for those that can be made by joining, in
which the set has qubits just when the kind says so. -/
namespace QuantumOps

namespace QubitSet

variable {s : QubitSet}

theorem isEmpty_iff : s.isEmpty = true ↔ s = ∅ := by
  rw [isEmpty, List.isEmpty_iff]
  constructor
  · intro h
    refine QubitSet.ext fun q => ?_
    rw [mem_def, h]
    exact iff_of_false List.not_mem_nil (not_mem_empty q)
  · rintro rfl
    rfl

end QubitSet

namespace Involved

variable {a b c : Involved} {s : QubitSet}

theorem none_join : none.join a = a := by
  cases a with
  | all => rfl
  | only s => exact congrArg only (QubitSet.ext fun q => by simp)

theorem join_none : a.join none = a := by
  cases a with
  | all => rfl
  | only s => exact congrArg only (QubitSet.ext fun q => by simp)

theorem all_join : all.join a = all := by
  cases a <;> rfl

theorem join_all : a.join all = all := by
  cases a <;> rfl

theorem join_assoc : (a.join b).join c = a.join (b.join c) := by
  cases a with
  | all => rfl
  | only s =>
    cases b with
    | all => rfl
    | only t =>
      cases c with
      | all => rfl
      | only u => exact congrArg only (QubitSet.ext fun q => by simp [or_assoc])

theorem join_comm : a.join b = b.join a := by
  cases a with
  | all => rw [all_join, join_all]
  | only s =>
    cases b with
    | all => rfl
    | only t => exact congrArg only (QubitSet.ext fun q => by simp [or_comm])

theorem join_self : a.join a = a := by
  cases a with
  | all => rfl
  | only s => exact congrArg only (QubitSet.ext fun q => by simp)

theorem join_eq_all : a.join b = all ↔ a = all ∨ b = all := by
  cases a with
  | all => simp [join]
  | only s => cases b <;> simp [join]

theorem join_eq_only : a.join b = only s ↔ ∃ t u, a = only t ∧ b = only u ∧ s = t ∪ u := by
  cases a with
  | all => simp [join]
  | only t => cases b <;> simp [join, eq_comm]

/-- What kind of answer there is to the question which qubits are involved. -/
inductive Kind
  | none
  | all
  | set
  deriving DecidableEq, Repr

/-- An answer kept as its kind beside the qubits that are named one by one. -/
structure Layout where
  kind : Kind
  qubits : QubitSet
  deriving DecidableEq, Repr

namespace Layout

def none : Layout := ⟨.none, ∅⟩

def all : Layout := ⟨.all, ∅⟩

/-- An empty set is kept as no qubits. -/
def set (s : QubitSet) : Layout := if s.isEmpty then none else ⟨.set, s⟩

/-- Merges the sets as they are kept, unless one of the kinds is the whole register. -/
def join (v w : Layout) : Layout :=
  if v.kind = .all ∨ w.kind = .all then all else set (v.qubits ∪ w.qubits)

/-- What can be made from nothing, the whole register and sets by joining. -/
inductive Obtainable : Layout → Prop
  | none : Obtainable none
  | all : Obtainable all
  | set (s : QubitSet) : Obtainable (set s)
  | join {v w : Layout} : Obtainable v → Obtainable w → Obtainable (v.join w)

theorem set_kind_ne_all : (set s).kind ≠ .all := by
  rw [set]
  split <;> nofun

theorem set_qubits : (set s).qubits = s := by
  rw [set]
  split
  · rename_i h
    exact (QubitSet.isEmpty_iff.mp h).symm
  · rfl

theorem set_kind : (set s).kind = .set ↔ s ≠ ∅ := by
  rw [ne_eq, ← QubitSet.isEmpty_iff, set]
  split <;> simp [none, *]

end Layout

/-- How what is involved is kept as a kind beside a set. -/
def layout : Involved → Layout
  | all => .all
  | only s => .set s

theorem layout_kind_eq_set : a.layout.kind = .set ↔ a.isSet = true := by
  cases a with
  | all => simp [layout, Layout.all, isSet]
  | only s => simp [layout, Layout.set_kind, isSet, ← QubitSet.isEmpty_iff]

theorem layout_qubits : a.layout.qubits = a.qubits := by
  cases a with
  | all => rfl
  | only s => exact Layout.set_qubits

theorem layout_injective : a.layout = b.layout ↔ a = b := by
  refine ⟨fun h => ?_, congrArg layout⟩
  cases a with
  | all =>
    cases b with
    | all => rfl
    | only t => exact absurd (congrArg Layout.kind h).symm Layout.set_kind_ne_all
  | only s =>
    cases b with
    | all => exact absurd (congrArg Layout.kind h) Layout.set_kind_ne_all
    | only t =>
      have hqubits := congrArg Layout.qubits h
      rw [layout, layout, Layout.set_qubits, Layout.set_qubits] at hqubits
      rw [hqubits]

theorem layout_join : (a.join b).layout = a.layout.join b.layout := by
  cases a with
  | all => rfl
  | only s =>
    cases b with
    | all => exact (if_pos (.inr rfl)).symm
    | only t =>
      have hkinds : ¬((only s).layout.kind = .all ∨ (only t).layout.kind = .all) :=
        not_or_intro Layout.set_kind_ne_all Layout.set_kind_ne_all
      rw [Layout.join, if_neg hkinds, layout_qubits, layout_qubits]
      rfl

/-- The pairs that can be made are those that keep what is involved. -/
theorem Layout.obtainable_iff {v : Layout} : v.Obtainable ↔ ∃ a : Involved, a.layout = v := by
  constructor
  · intro h
    induction h with
    | none => exact ⟨.none, rfl⟩
    | all => exact ⟨.all, rfl⟩
    | set s => exact ⟨.only s, rfl⟩
    | join _ _ hv hw =>
      obtain ⟨a, rfl⟩ := hv
      obtain ⟨b, rfl⟩ := hw
      exact ⟨a.join b, layout_join⟩
  · rintro ⟨a, rfl⟩
    cases a with
    | all => exact .all
    | only s => exact .set s

end Involved
end QuantumOps
