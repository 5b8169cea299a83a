import Mathlib.Data.Prod.Lex
import Mathlib.Order.Bounds.Basic
import QuantumOps.Operation.Requirement
import QuantumOps.Proofs.Operation.Construction

/-! The version that an operation needs is the latest of those that the operations inside it need by
their names, whatever wraps them. So a library understands an operation just when it understands
each operation inside on its own. -/
namespace QuantumOps

namespace Version

/-- The parts of a version, compared one after another. -/
def parts (v : Version) : ℕ ×ₗ ℕ ×ₗ ℕ := toLex (v.major, toLex (v.minor, v.patch))

variable {v w : Version}

/-- Versions are ordered lexicographically. -/
theorem lt_iff_parts : v < w ↔ v.parts < w.parts := by
  have hlt : v < w ↔ v.lt w = true := Iff.rfl
  rw [hlt, lt, parts, parts, Prod.Lex.toLex_lt_toLex, Prod.Lex.toLex_lt_toLex]
  simp only [Bool.or_eq_true, Bool.and_eq_true, decide_eq_true_eq]

theorem le_iff_parts : v ≤ w ↔ v.parts ≤ w.parts := by
  rw [← not_lt, ← lt_iff_parts]
  exact Bool.eq_false_iff

theorem parts_max : (v.max w).parts = Max.max v.parts w.parts := by
  rw [max]
  split
  · rename_i h
    exact (max_eq_right (lt_iff_parts.mp h).le).symm
  · rename_i h
    exact (max_eq_left (not_lt.mp (mt lt_iff_parts.mpr h))).symm

theorem check_eq_ok_iff {minimum library : Version} :
    check minimum library = .ok () ↔ minimum.parts ≤ library.parts := by
  rw [← not_lt, ← lt_iff_parts, check]
  split
  · rename_i h
    simp [h]
  · rename_i h
    simp [h]

/-- No operation is older than the first version or newer than this library. -/
theorem minimumFor_bounds (name : String) :
    initial.parts ≤ (minimumFor name).parts ∧ (minimumFor name).parts ≤ current.parts := by
  rw [← le_iff_parts, ← le_iff_parts, minimumFor]
  cases h : introductions.lookup name with
  | none => decide
  | some v =>
    have hmem : ∀ e ∈ introductions, initial ≤ e.2 ∧ e.2 ≤ current := by decide
    exact hmem (name, v) (Dict.mem_of_lookup h)

/-- The first version, and those that the operations need by their names. -/
def named {R : Type} (ops : List (Operation R)) : Set (ℕ ×ₗ ℕ ×ₗ ℕ) :=
  {v | v = initial.parts ∨ ∃ n ∈ ops, v = (minimumFor n.name).parts}

end Version

section
variable {R : Type} {x : ℕ ×ₗ ℕ ×ₗ ℕ}

mutual

/-- A version is late enough for an operation just when it is for every operation inside. -/
theorem Operation.minimumVersion_le_iff : ∀ {op : Operation R}, op.minimumVersion.parts ≤ x ↔
    ∀ n ∈ op.nested, (Version.minimumFor n.name).parts ≤ x
  | .record r => by
    rw [Operation.nested, List.forall_mem_singleton]
    rfl
  | .block b body => by
    rw [Operation.minimumVersion, Version.parts_max, max_le_iff, Circuit.minimumVersionFrom_le_iff,
      Operation.nested, List.forall_mem_cons]
    have hfirst := (Version.minimumFor_bounds b.name).1
    exact ⟨fun h => ⟨h.1, h.2.2⟩, fun h => ⟨h.1, hfirst.trans h.1, h.2⟩⟩
  | .annotated op note => by
    rw [Operation.minimumVersion, Version.parts_max, max_le_iff, Operation.minimumVersion_le_iff,
      Operation.nested, List.forall_mem_cons]

theorem Circuit.minimumVersionFrom_le_iff : ∀ {c : List (Operation R)} {sofar : Version},
    (Circuit.minimumVersionFrom sofar c).parts ≤ x ↔ sofar.parts ≤ x ∧
      ∀ n ∈ Circuit.nested c, (Version.minimumFor n.name).parts ≤ x
  | [], sofar => by
    rw [Circuit.minimumVersionFrom, Circuit.nested, and_iff_left (List.forall_mem_nil _)]
  | op :: rest, sofar => by
    rw [Circuit.minimumVersionFrom, Circuit.minimumVersionFrom_le_iff, Version.parts_max,
      max_le_iff, Operation.minimumVersion_le_iff, Circuit.nested, List.forall_mem_append,
      and_assoc]

end

theorem Circuit.minimumVersion_le_iff {c : Circuit R} : (Circuit.minimumVersion c).parts ≤ x ↔
    Version.initial.parts ≤ x ∧ ∀ n ∈ Circuit.nested c, (Version.minimumFor n.name).parts ≤ x :=
  Circuit.minimumVersionFrom_le_iff

theorem Operation.mem_nested_self (op : Operation R) : op ∈ op.nested := by
  cases op <;> exact List.mem_cons_self

mutual

/-- What is inside an operation inside is inside. -/
theorem Operation.nested_subset : ∀ {op n : Operation R}, n ∈ op.nested → n.nested ⊆ op.nested
  | .record r, n, h => by
    rw [List.mem_singleton.mp h]
    exact List.Subset.refl _
  | .block b body, n, h => by
    rcases List.mem_cons.mp h with rfl | h
    · exact List.Subset.refl _
    · exact List.subset_cons_of_subset _ (Circuit.nested_subset h)
  | .annotated op note, n, h => by
    rcases List.mem_cons.mp h with rfl | h
    · exact List.Subset.refl _
    · exact List.subset_cons_of_subset _ (Operation.nested_subset h)

theorem Circuit.nested_subset : ∀ {c : List (Operation R)} {n : Operation R},
    n ∈ Circuit.nested c → n.nested ⊆ Circuit.nested c
  | [], _, h => nomatch h
  | op :: rest, n, h => by
    rcases List.mem_append.mp h with h | h
    · exact List.subset_append_of_subset_left _ (Operation.nested_subset h)
    · exact List.subset_append_of_subset_right _ (Circuit.nested_subset h)

end

/-- What is late enough for just the same versions as the first one and those of the operations is
the latest of them. -/
theorem Version.isGreatest_named {ops : List (Operation R)} {v : ℕ ×ₗ ℕ ×ₗ ℕ}
    (h : ∀ x, v ≤ x ↔ initial.parts ≤ x ∧ ∀ n ∈ ops, (minimumFor n.name).parts ≤ x) :
    IsGreatest (named ops) v := by
  obtain ⟨hfirst, hnamed⟩ := (h v).mp (le_refl v)
  constructor
  · -- the first version is the latest of all only where there are no operations
    by_cases hops : ops = []
    · subst hops
      have hle : v ≤ initial.parts := (h _).mpr ⟨le_refl _, List.forall_mem_nil _⟩
      exact .inl (le_antisymm hle hfirst)
    · obtain ⟨n, hn, hmax⟩ := Set.exists_max_image {n | n ∈ ops}
        (fun n => (minimumFor n.name).parts) (List.finite_toSet ops)
        (List.exists_mem_of_ne_nil ops hops)
      have hle : v ≤ (minimumFor n.name).parts := (h _).mpr ⟨(minimumFor_bounds n.name).1, hmax⟩
      exact .inr ⟨n, hn, le_antisymm hle (hnamed n hn)⟩
  · rintro x (rfl | ⟨n, hn, rfl⟩)
    · exact hfirst
    · exact hnamed n hn

/-- No version before the first is late enough for an operation, since there is at least itself. -/
theorem Operation.initial_le {op : Operation R}
    (h : ∀ n ∈ op.nested, (Version.minimumFor n.name).parts ≤ x) : Version.initial.parts ≤ x :=
  (Version.minimumFor_bounds op.name).1.trans (h op op.mem_nested_self)

end

/-- The least version for an operation or a circuit is the latest of the first version and those
that all operations inside need by their names. So a library is new enough for an operation just
when it is for each operation inside, and for a circuit, which may be empty, just when it is for
each and no older than the first version. Adding operations or wrapping them never makes less of
what is needed, and this library is new enough for everything. -/
theorem minimumVersion_exact {R : Type} :
    (∀ op : Operation R, IsGreatest (Version.named op.nested) op.minimumVersion.parts) ∧
    (∀ c : Circuit R,
      IsGreatest (Version.named (Circuit.nested c)) (Circuit.minimumVersion c).parts) ∧
    (∀ (op : Operation R) (library : Version), Version.check op.minimumVersion library = .ok () ↔
      ∀ n ∈ op.nested, Version.check (Version.minimumFor n.name) library = .ok ()) ∧
    (∀ (c : Circuit R) (library : Version),
      Version.check (Circuit.minimumVersion c) library = .ok () ↔
        Version.check .initial library = .ok () ∧
        ∀ n ∈ Circuit.nested c, Version.check (Version.minimumFor n.name) library = .ok ()) ∧
    (∀ c c' : Circuit R, c ⊆ c' →
      (Circuit.minimumVersion c).parts ≤ (Circuit.minimumVersion c').parts) ∧
    (∀ op n : Operation R, n ∈ op.nested → n.minimumVersion.parts ≤ op.minimumVersion.parts) ∧
    (∀ (b : Block R) (body : Circuit R),
      (Circuit.minimumVersion body).parts ≤ (Operation.block b body).minimumVersion.parts) ∧
    (∀ op : Operation R, Version.check op.minimumVersion .current = .ok ()) ∧
    ∀ c : Circuit R, Version.check (Circuit.minimumVersion c) .current = .ok () := by
  refine ⟨fun op => ?_, fun c => ?_, fun op library => ?_, fun c library => ?_, fun c c' hc => ?_,
    fun op n hn => ?_, fun b body => ?_, fun op => ?_, fun c => ?_⟩
  · refine Version.isGreatest_named fun x => Operation.minimumVersion_le_iff.trans ?_
    exact ⟨fun h => ⟨Operation.initial_le h, h⟩, fun h => h.2⟩
  · exact Version.isGreatest_named fun x => Circuit.minimumVersion_le_iff
  · simp only [Version.check_eq_ok_iff]
    exact Operation.minimumVersion_le_iff
  · simp only [Version.check_eq_ok_iff]
    exact Circuit.minimumVersion_le_iff
  · obtain ⟨hfirst, hnested⟩ := Circuit.minimumVersion_le_iff.mp (le_refl
      (Circuit.minimumVersion c').parts)
    refine Circuit.minimumVersion_le_iff.mpr ⟨hfirst, fun n hn => hnested n ?_⟩
    obtain ⟨op, hop, hn⟩ := Circuit.mem_nested.mp hn
    exact Circuit.mem_nested.mpr ⟨op, hc hop, hn⟩
  · have hnested := Operation.minimumVersion_le_iff.mp (le_refl op.minimumVersion.parts)
    exact Operation.minimumVersion_le_iff.mpr fun n' hn' =>
      hnested n' (Operation.nested_subset hn hn')
  · rw [Operation.minimumVersion, Version.parts_max]
    exact le_max_right _ _
  · rw [Version.check_eq_ok_iff, Operation.minimumVersion_le_iff]
    exact fun n _ => (Version.minimumFor_bounds n.name).2
  · rw [Version.check_eq_ok_iff, Circuit.minimumVersion_le_iff]
    exact ⟨by decide, fun n _ => (Version.minimumFor_bounds n.name).2⟩

/-- A conditional around a loop needs what an annotated operation inside the loop needs. -/
theorem minimumVersion_exact_wrapped :
    let noted : Operation Float := .annotated (.record (.activeReset 0)) "x"
    let wrapped : Operation Float :=
      .block (.conditional "ro" 0) [.block (.loop (.number 2)) [noted]]
    (noted ∈ wrapped.nested ∧ noted.minimumVersion.parts ≤ wrapped.minimumVersion.parts) ∧
    ([wrapped] ⊆ [noted, wrapped] ∧ (Circuit.minimumVersion [wrapped]).parts ≤
      (Circuit.minimumVersion [noted, wrapped]).parts) ∧
    Version.check wrapped.minimumVersion ⟨1, 7, 0⟩ = .error ⟨(1, 7), (1, 8)⟩ ∧
    Version.check wrapped.minimumVersion .current = .ok () := by
  intro noted wrapped
  have hnoted : noted ∈ wrapped.nested := by
    simp [wrapped, Operation.nested, Circuit.nested, Operation.mem_nested_self]
  have hmore : [wrapped] ⊆ [noted, wrapped] := List.subset_cons_self noted [wrapped]
  obtain ⟨-, -, -, -, hadd, hinside, -, hcurrent, -⟩ := minimumVersion_exact (R := Float)
  exact ⟨⟨hnoted, hinside wrapped noted hnoted⟩, ⟨hmore, hadd _ _ hmore⟩, by decide,
    hcurrent wrapped⟩

end QuantumOps
