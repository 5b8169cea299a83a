import QuantumOps.Proofs.Operation.Nesting

/-! Renaming the qubits of an operation by a function on all qubits. It renames every operation
inside, and renaming twice is renaming once as long as no dictionary loses a key. -/
namespace QuantumOps

variable {R : Type}

def Record.rename (f : Nat → Nat) : Record R → Record R
  | singleQubit g q => singleQubit g (f q)
  | twoQubit g c t => twoQubit g (f c) (f t)
  | noise kind q time => noise kind (f q) time
  | overrotation gate qs amplitude variance => overrotation gate (qs.map f) amplitude variance
  | stopParallelBlock qs time => stopParallelBlock (qs.map f) time
  | sleep qs time => sleep (qs.map f) time
  | activeReset q => activeReset (f q)
  | startDecompositionBlock qs reordering =>
    startDecompositionBlock (qs.map f) (reordering.rename f f)
  | stopDecompositionBlock qs => stopDecompositionBlock (qs.map f)
  | measureQubit q readout index => measureQubit (f q) readout index
  | repeatedMeasurement readout number (some indices) =>
    repeatedMeasurement readout number (some (indices.rename f id))
  | r => r

/-- Renames the qubits of a block, those of its circuit apart. -/
def Block.rename (f : Nat → Nat) : Block R → Block R
  | controlled q => controlled (f q)
  | pauliProduct paulis readout => pauliProduct (paulis.rename f id) readout
  | b => b

mutual

def Operation.rename (f : Nat → Nat) : Operation R → Operation R
  | .record r => .record (r.rename f)
  | .block b body => .block (b.rename f) (Circuit.rename f body)
  | .annotated op note => .annotated (op.rename f) note

def Circuit.rename (f : Nat → Nat) : List (Operation R) → List (Operation R)
  | [] => []
  | op :: rest => op.rename f :: Circuit.rename f rest

end

section
variable {f g : Nat → Nat}

theorem Record.mem_strictQubits_rename {r : Record R} {p : Nat} :
    p ∈ (r.rename f).strictQubits ↔ ∃ q ∈ r.strictQubits, f q = p := by
  cases r with
  | singleQubit | noise | activeReset | measureQubit =>
    simp [rename, strictQubits, eq_comm]
  | twoQubit => simp [rename, strictQubits, eq_comm]
  | overrotation | stopParallelBlock | sleep | startDecompositionBlock | stopDecompositionBlock =>
    exact List.mem_map
  | repeatedMeasurement readout number indices =>
    cases indices <;> simp [rename, strictQubits]
  | _ => simp [rename, strictQubits]

theorem Record.mem_looseKeys_rename {r : Record R} {p : Nat} :
    p ∈ (r.rename f).looseKeys ↔ ∃ q ∈ r.looseKeys, f q = p := by
  cases r with
  | startDecompositionBlock => exact Dict.mem_keys_rename
  | repeatedMeasurement readout number indices =>
    cases indices with
    | none => simp [rename, looseKeys]
    | some indices => exact Dict.mem_keys_rename
  | _ => simp [rename, looseKeys]

theorem Block.mem_strictQubits_rename {b : Block R} {p : Nat} :
    p ∈ (b.rename f).strictQubits ↔ ∃ q ∈ b.strictQubits, f q = p := by
  cases b with
  | controlled => simp [rename, strictQubits, eq_comm]
  | pauliProduct => exact Dict.mem_keys_rename
  | _ => simp [rename, strictQubits]

namespace Operation

variable {op : Operation R}

/-- The qubits of a renamed operation are the renamed qubits. -/
theorem mem_strictQubits_rename {p : Nat} :
    p ∈ (op.rename f).strictQubits ↔ ∃ q ∈ op.strictQubits, f q = p := by
  cases op with
  | record r =>
    rw [Operation.rename]
    exact r.mem_strictQubits_rename
  | block b body =>
    rw [Operation.rename]
    exact b.mem_strictQubits_rename
  | annotated op note => simp [Operation.rename, strictQubits]

theorem mem_looseKeys_rename {p : Nat} :
    p ∈ (op.rename f).looseKeys ↔ ∃ q ∈ op.looseKeys, f q = p := by
  cases op with
  | record r =>
    rw [Operation.rename]
    exact r.mem_looseKeys_rename
  | block | annotated => simp [Operation.rename, looseKeys]

/-- Only gates become gates on two qubits. -/
theorem eq_of_rename_eq_twoQubit {gate : TwoGate (Scalar R)} {c' t' : Nat}
    (h : op.rename f = .record (.twoQubit gate c' t')) :
    ∃ c t, op = .record (.twoQubit gate c t) ∧ f c = c' ∧ f t = t' := by
  cases op with
  | record r =>
    cases r with
    | twoQubit gate c t =>
      cases h
      exact ⟨c, t, rfl, rfl, rfl⟩
    | repeatedMeasurement readout number indices =>
      cases indices <;> simp [Operation.rename, Record.rename] at h
    | _ => simp [Operation.rename, Record.rename] at h
  | block | annotated => simp [Operation.rename] at h

theorem eq_of_rename_eq_changeDevice {tags : List String} {name : String} {encoded : List UInt8}
    (h : op.rename f = .record (.changeDevice tags name encoded)) :
    op = .record (.changeDevice tags name encoded) := by
  cases op with
  | record r =>
    cases r with
    | repeatedMeasurement readout number indices =>
      cases indices <;> simp [Operation.rename, Record.rename] at h
    | changeDevice => exact h
    | _ => simp [Operation.rename, Record.rename] at h
  | block | annotated => simp [Operation.rename] at h

end Operation

mutual

/-- The operations inside a renamed operation are the renamed operations inside. -/
theorem Operation.nested_rename : ∀ op : Operation R,
    (op.rename f).nested = op.nested.map (Operation.rename f)
  | .record r => rfl
  | .block b body => by
    rw [Operation.nested, List.map_cons, Operation.rename, Operation.nested,
      Circuit.nested_rename body]
  | .annotated op note => by
    rw [Operation.nested, List.map_cons, Operation.rename, Operation.nested,
      Operation.nested_rename op]

theorem Circuit.nested_rename : ∀ c : List (Operation R),
    Circuit.nested (Circuit.rename f c) = (Circuit.nested c).map (Operation.rename f)
  | [] => rfl
  | op :: rest => by
    rw [Circuit.nested, List.map_append, Circuit.rename, Circuit.nested,
      Operation.nested_rename op, Circuit.nested_rename rest]

end

theorem Record.rename_id (r : Record R) : r.rename id = r := by
  cases r with
  | repeatedMeasurement readout number indices =>
    cases indices <;> simp [rename, Dict.rename_id]
  | _ => simp [rename, Dict.rename_id]

theorem Block.rename_id (b : Block R) : b.rename id = b := by
  cases b <;> simp [rename, Dict.rename_id]

mutual

theorem Operation.rename_id : ∀ op : Operation R, op.rename id = op
  | .record r => by rw [Operation.rename, r.rename_id]
  | .block b body => by rw [Operation.rename, b.rename_id, Circuit.rename_id body]
  | .annotated op note => by rw [Operation.rename, op.rename_id]

theorem Circuit.rename_id : ∀ c : List (Operation R), Circuit.rename id c = c
  | [] => rfl
  | op :: rest => by rw [Circuit.rename, op.rename_id, Circuit.rename_id rest]

end

/-- No two keys of a dictionary that the operation has itself come to one. -/
structure Operation.KeysApart (f : Nat → Nat) (op : Operation R) : Prop where
  strict : Set.InjOn f {q | q ∈ op.strictQubits}
  loose : Set.InjOn f {q | q ∈ op.looseKeys}

theorem Record.rename_rename {r : Record R} (h : Set.InjOn (g ∘ f) {q | q ∈ r.looseKeys}) :
    (r.rename f).rename g = r.rename (g ∘ f) := by
  cases r with
  | startDecompositionBlock qs reordering =>
    simp only [rename, List.map_map, Dict.rename_rename h]
  | repeatedMeasurement readout number indices =>
    cases indices with
    | none => rfl
    | some indices => simp only [rename, Dict.rename_rename h, Function.comp_id]
  | _ => simp only [rename, List.map_map, Function.comp_apply]

theorem Block.rename_rename {b : Block R} (h : Set.InjOn (g ∘ f) {q | q ∈ b.strictQubits}) :
    (b.rename f).rename g = b.rename (g ∘ f) := by
  cases b with
  | pauliProduct paulis readout => simp only [rename, Dict.rename_rename h, Function.comp_id]
  | _ => rfl

mutual

/-- Renaming twice is renaming once where no dictionary inside loses a key. -/
theorem Operation.rename_rename : ∀ {op : Operation R},
    (∀ n ∈ op.nested, n.KeysApart (g ∘ f)) → (op.rename f).rename g = op.rename (g ∘ f)
  | .record r, h => by
    rw [Operation.nested, List.forall_mem_singleton] at h
    simp only [Operation.rename, Record.rename_rename h.loose]
  | .block b body, h => by
    rw [Operation.nested, List.forall_mem_cons] at h
    simp only [Operation.rename, Block.rename_rename h.1.strict, Circuit.rename_rename h.2]
  | .annotated op note, h => by
    rw [Operation.nested, List.forall_mem_cons] at h
    simp only [Operation.rename, Operation.rename_rename h.2]

theorem Circuit.rename_rename : ∀ {c : List (Operation R)},
    (∀ n ∈ Circuit.nested c, n.KeysApart (g ∘ f)) →
      Circuit.rename g (Circuit.rename f c) = Circuit.rename (g ∘ f) c
  | [], _ => rfl
  | op :: rest, h => by
    rw [Circuit.nested, List.forall_mem_append] at h
    simp only [Circuit.rename, Operation.rename_rename h.1, Circuit.rename_rename h.2]

end

end
end QuantumOps
