import QuantumOps.Operation.Validity
import QuantumOps.Proofs.Qubit.Mapping

/-! The operations inside an operation, with the qubits that each has itself: those that a renaming
must know, and the keys that it may leave as they are. What each asks of a mapping is all that
decides whether it can be renamed. -/
namespace QuantumOps

variable {R : Type}

namespace Record

/-- The qubits that a record acts on one by one. -/
def strictQubits : Record R → List Nat
  | singleQubit _ q | noise _ q _ | activeReset q | measureQubit q _ _ => [q]
  | twoQubit _ c t => [c, t]
  | overrotation _ qs _ _ | stopParallelBlock qs _ | sleep qs _ | startDecompositionBlock qs _
  | stopDecompositionBlock qs => qs
  | _ => []

/-- The keys of a dictionary of qubits that the record need not act on. -/
def looseKeys : Record R → List Nat
  | startDecompositionBlock _ reordering => reordering.keys
  | repeatedMeasurement _ _ (some indices) => indices.keys
  | _ => []

end Record

/-- The qubits that a block acts on one by one, those of its circuit apart. -/
def Block.strictQubits : Block R → List Nat
  | .controlled q => [q]
  | .pauliProduct paulis _ => paulis.keys
  | _ => []

/-- The qubits that an operation acts on one by one itself. -/
def Operation.strictQubits : Operation R → List Nat
  | .record r => r.strictQubits
  | .block b _ => b.strictQubits
  | .annotated .. => []

/-- The keys of a dictionary of qubits that the operation need not act on. -/
def Operation.looseKeys : Operation R → List Nat
  | .record r => r.looseKeys
  | _ => []

mutual

/-- The operation and all operations inside it. -/
def Operation.nested : Operation R → List (Operation R)
  | .record r => [.record r]
  | .block b body => .block b body :: Circuit.nested body
  | .annotated op note => .annotated op note :: op.nested

def Circuit.nested : List (Operation R) → List (Operation R)
  | [] => []
  | op :: rest => op.nested ++ Circuit.nested rest

end

/-- All records inside an operation have fields that make one. -/
def Operation.IsValid [Numeric R] (op : Operation R) : Prop :=
  ∀ r, .record r ∈ op.nested → r.fault? = none

/-- What a mapping must satisfy for the qubits that an operation has itself to be renamed. -/
structure Mapping.Permits (m : Mapping) (op : Operation R) : Prop where
  mapped : ∀ q ∈ op.strictQubits, q ∈ m.keys
  /-- Control and target of a gate stay different. -/
  apart : ∀ g c t, op = .record (.twoQubit g c t) → m.get? c ≠ m.get? t
  /-- No two keys of a dictionary come to one. -/
  injective : Set.InjOn m.keep {q | q ∈ op.looseKeys}
  /-- An instruction to a device is not renamed. -/
  still : ∀ tags name encoded, op = .record (.changeDevice tags name encoded) → m.IsIdentity

namespace Mapping

variable {m : Mapping}

/-- Most operations ask of a mapping only that it knows their qubits. -/
theorem permits_iff_mapped {op : Operation R} (hgate : ∀ g c t, op ≠ .record (.twoQubit g c t))
    (hdevice : ∀ tags name encoded, op ≠ .record (.changeDevice tags name encoded))
    (hloose : op.looseKeys = []) : m.Permits op ↔ ∀ q ∈ op.strictQubits, q ∈ m.keys := by
  refine ⟨fun h => h.mapped, fun h => ⟨h, ?_, ?_, ?_⟩⟩
  · exact fun g c t hop => absurd hop (hgate g c t)
  · simp [hloose]
  · exact fun tags name encoded hop => absurd hop (hdevice tags name encoded)

theorem permits_annotated (op : Operation R) (note : String) : m.Permits (.annotated op note) :=
  (permits_iff_mapped (by simp) (by simp) rfl).mpr (List.forall_mem_nil _)

theorem permits_twoQubit {g : TwoGate (Scalar R)} {c t : Nat} :
    m.Permits (.record (.twoQubit g c t)) ↔ (c ∈ m.keys ∧ t ∈ m.keys) ∧ m.keep c ≠ m.keep t := by
  constructor
  · intro h
    have hc : c ∈ m.keys := h.mapped c List.mem_cons_self
    have ht : t ∈ m.keys := h.mapped t (List.mem_cons_of_mem c List.mem_cons_self)
    refine ⟨⟨hc, ht⟩, fun heq => h.apart g c t rfl ?_⟩
    rw [get?_of_mem hc, get?_of_mem ht, heq]
  · rintro ⟨⟨hc, ht⟩, hne⟩
    refine ⟨?_, ?_, ?_, by simp⟩
    · simp [Operation.strictQubits, Record.strictQubits, hc, ht]
    · rintro _ _ _ ⟨⟩ heq
      rw [get?_of_mem hc, get?_of_mem ht] at heq
      exact hne (Option.some.inj heq)
    · simp [Operation.looseKeys, Record.looseKeys]

theorem permits_startDecompositionBlock {qs : List Nat} {reordering : Dict Nat Nat} :
    m.Permits (.record (.startDecompositionBlock (R := R) qs reordering)) ↔
      Set.InjOn m.keep {q | q ∈ reordering.keys} ∧ ∀ q ∈ qs, q ∈ m.keys :=
  ⟨fun h => ⟨h.injective, h.mapped⟩, fun h => ⟨h.2, by simp, h.1, by simp⟩⟩

theorem permits_repeatedMeasurement {readout : String} {number : Nat} {indices : Dict Nat Nat} :
    m.Permits (.record (.repeatedMeasurement (R := R) readout number (some indices))) ↔
      Set.InjOn m.keep {q | q ∈ indices.keys} :=
  ⟨fun h => h.injective, fun h => ⟨List.forall_mem_nil _, by simp, h, by simp⟩⟩

theorem permits_changeDevice {tags : List String} {name : String} {encoded : List UInt8} :
    m.Permits (.record (.changeDevice (R := R) tags name encoded)) ↔ m.IsIdentity := by
  refine ⟨fun h => h.still tags name encoded rfl, fun h => ⟨List.forall_mem_nil _, by simp, ?_, ?_⟩⟩
  · simp [Operation.looseKeys, Record.looseKeys]
  · exact fun _ _ _ _ => h

end Mapping

end QuantumOps
