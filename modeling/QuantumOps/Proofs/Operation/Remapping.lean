import QuantumOps.Numeric.Float
import QuantumOps.Operation.Remap
import QuantumOps.Proofs.Operation.Renaming

/-! The remapping of an operation succeeds just when every operation inside permits it, and is then
the renaming by the mapping extended to all qubits. So a mapping that moves nothing changes nothing,
one remapping after another is a single one, and a permutation is undone by its inverse. -/
namespace QuantumOps

variable {R : Type}

namespace Record

variable {m : Mapping} {r' : Record R}

theorem remap_twoQubit_eq_ok {g : TwoGate (Scalar R)} {c t : Nat} :
    (twoQubit g c t).remap m = .ok r' ↔
      m.Permits (.record (twoQubit g c t)) ∧ r' = twoQubit g (m.keep c) (m.keep t) := by
  rw [Mapping.permits_twoQubit]
  constructor
  · intro h
    rw [remap] at h
    obtain ⟨c', hcontrol, h⟩ := bind_eq_ok.mp h
    obtain ⟨t', htarget, h⟩ := bind_eq_ok.mp h
    obtain ⟨hc, rfl⟩ := Mapping.strict_eq_ok.mp hcontrol
    obtain ⟨ht, rfl⟩ := Mapping.strict_eq_ok.mp htarget
    split at h
    · cases h
    · rename_i hne
      exact ⟨⟨⟨hc, ht⟩, hne⟩, pure_eq_ok.mp h⟩
  · rintro ⟨⟨⟨hc, ht⟩, hne⟩, rfl⟩
    rw [remap, Mapping.strict_eq_ok.mpr ⟨hc, rfl⟩, Mapping.strict_eq_ok.mpr ⟨ht, rfl⟩]
    exact if_neg hne

theorem remap_changeDevice_eq_ok {tags : List String} {name : String} {encoded : List UInt8} :
    (changeDevice tags name encoded).remap m = .ok r' ↔
      m.Permits (.record (changeDevice (R := R) tags name encoded)) ∧
        r' = changeDevice tags name encoded := by
  rw [Mapping.permits_changeDevice, Mapping.IsIdentity, ← Mapping.firstMoved?_eq_none, remap]
  cases m.firstMoved? with
  | some q => simp
  | none => exact pure_eq_ok.trans (by simp)

/-- A mapping renames a record just when the record permits it. -/
theorem remap_eq_ok {r : Record R} :
    r.remap m = .ok r' ↔ m.Permits (.record r) ∧ r' = r.rename m.keep := by
  cases r with
  | singleQubit | noise | activeReset | measureQubit =>
    rw [Mapping.permits_iff_mapped (by simp) (by simp) rfl]
    exact (bind_pure_eq_ok Mapping.strict_eq_ok).trans
      (by simp [Operation.strictQubits, strictQubits, rename])
  | overrotation | stopParallelBlock | sleep | stopDecompositionBlock =>
    rw [Mapping.permits_iff_mapped (by simp) (by simp) rfl]
    exact bind_pure_eq_ok Mapping.strictList_eq_ok
  | twoQubit g c t => exact remap_twoQubit_eq_ok
  | startDecompositionBlock qs reordering =>
    rw [Mapping.permits_startDecompositionBlock]
    exact bind_bind_pure_eq_ok (f := fun d ps => startDecompositionBlock ps d)
      Mapping.keepEntries_eq_ok Mapping.strictList_eq_ok
  | changeDevice tags name encoded => exact remap_changeDevice_eq_ok
  | repeatedMeasurement readout number indices =>
    cases indices with
    | none =>
      rw [Mapping.permits_iff_mapped (by simp) (by simp) rfl]
      exact pure_eq_ok.trans (by simp [Operation.strictQubits, strictQubits, rename])
    | some indices =>
      rw [Mapping.permits_repeatedMeasurement]
      exact bind_pure_eq_ok Mapping.keepEntries_eq_ok
  | _ =>
    rw [Mapping.permits_iff_mapped (by simp) (by simp) rfl]
    exact pure_eq_ok.trans (by simp [Operation.strictQubits, strictQubits, rename])

end Record

section
variable {m : Mapping}

theorem Block.remap_eq_ok {b b' : Block R} (body : List (Operation R)) :
    b.remap m = .ok b' ↔ m.Permits (.block b body) ∧ b' = b.rename m.keep := by
  rw [Mapping.permits_iff_mapped (by simp) (by simp) rfl]
  cases b with
  | controlled q =>
    exact (bind_pure_eq_ok Mapping.strict_eq_ok).trans
      (by simp [Operation.strictQubits, strictQubits, rename])
  | pauliProduct paulis readout => exact bind_pure_eq_ok Mapping.strictEntries_eq_ok
  | _ => exact pure_eq_ok.trans (by simp [Operation.strictQubits, strictQubits, rename])

mutual

/-- An operation is renamed just when all operations inside permit it. -/
theorem Operation.remap_eq_ok : ∀ {op op' : Operation R},
    op.remap m = .ok op' ↔ (∀ n ∈ op.nested, m.Permits n) ∧ op' = op.rename m.keep
  | .record r, op' => by
    rw [Operation.remap, Operation.nested, List.forall_mem_singleton]
    exact bind_pure_eq_ok Record.remap_eq_ok
  | .block b body, op' => by
    rw [Operation.remap, Operation.nested, List.forall_mem_cons]
    exact bind_bind_pure_eq_ok (Block.remap_eq_ok body) Circuit.remap_eq_ok
  | .annotated op note, op' => by
    rw [Operation.remap, Operation.nested, List.forall_mem_cons,
      and_iff_right (Mapping.permits_annotated op note)]
    exact bind_pure_eq_ok Operation.remap_eq_ok

theorem Circuit.remap_eq_ok : ∀ {c c' : List (Operation R)},
    Circuit.remap m c = .ok c' ↔
      (∀ n ∈ Circuit.nested c, m.Permits n) ∧ c' = Circuit.rename m.keep c
  | [], c' => by
    rw [Circuit.remap, Circuit.nested, pure_eq_ok, and_iff_right (List.forall_mem_nil _)]
    rfl
  | op :: rest, c' => by
    rw [Circuit.remap, Circuit.nested, List.forall_mem_append]
    exact bind_bind_pure_eq_ok Operation.remap_eq_ok Circuit.remap_eq_ok

end

end

namespace Mapping

variable {m m' : Mapping} {op : Operation R}

/-- A mapping that moves no qubit permits every operation whose qubits it knows. -/
theorem IsIdentity.permits [Numeric R] (h : m.IsIdentity) (hvalid : op.IsValid)
    (hmapped : ∀ n ∈ op.nested, ∀ q ∈ n.strictQubits, q ∈ m.keys) :
    ∀ n ∈ op.nested, m.Permits n := by
  intro n hn
  refine ⟨hmapped n hn, ?_, ?_, fun _ _ _ _ => h⟩
  · rintro gate c t rfl heq
    rw [get?_of_mem (hmapped _ hn c List.mem_cons_self),
      get?_of_mem (hmapped _ hn t (List.mem_cons_of_mem c List.mem_cons_self)),
      h.keep_eq_id] at heq
    have hct : c = t := Option.some.inj heq
    have hfault := hvalid _ hn
    rw [Record.fault?, if_pos hct] at hfault
    cases hfault
  · rw [h.keep_eq_id]
    exact Set.injOn_id _

theorem Permits.injOn_comp (h : m.Permits op) (h' : m'.Permits (op.rename m.keep)) :
    Set.InjOn (m'.keep ∘ m.keep) {q | q ∈ op.looseKeys} :=
  h'.injective.comp h.injective fun q hq => Operation.mem_looseKeys_rename.mpr ⟨q, hq, rfl⟩

/-- Permitted by one mapping and then by another is permitted by both in one. -/
theorem Permits.andThen (h : m.Permits op) (h' : m'.Permits (op.rename m.keep)) :
    (m.andThen m').Permits op := by
  refine ⟨fun q hq => mem_keys_andThen.mpr (Or.inl (h.mapped q hq)), ?_, ?_, ?_⟩
  · rintro gate c t rfl heq
    obtain ⟨⟨hc, ht⟩, -⟩ := permits_twoQubit.mp h
    obtain ⟨-, hne⟩ := permits_twoQubit.mp h'
    rw [get?_andThen, get?_andThen, if_pos (Or.inl hc), if_pos (Or.inl ht)] at heq
    exact hne (Option.some.inj heq)
  · rw [keep_andThen]
    exact h.injOn_comp h'
  · rintro tags name encoded rfl
    exact (h.still tags name encoded rfl).andThen (h'.still tags name encoded rfl)

/-- What a permutation has renamed its inverse may rename back. -/
theorem IsPermutation.permits_inverse (hm : m.IsPermutation) (h : m.Permits op) :
    m.inverse.Permits (op.rename m.keep) := by
  have hback : ∀ q ∈ op.strictQubits, m.inverse.get? (m.keep q) = some q :=
    fun q hq => hm.injective.get?_inverse.mpr (get?_of_mem (h.mapped q hq))
  refine ⟨?_, ?_, ?_, ?_⟩
  · intro p hp
    obtain ⟨q, hq, rfl⟩ := Operation.mem_strictQubits_rename.mp hp
    exact Dict.mem_keys.mpr ⟨q, hback q hq⟩
  · intro gate c' t' hop heq
    obtain ⟨c, t, rfl, rfl, rfl⟩ := Operation.eq_of_rename_eq_twoQubit hop
    rw [hback c List.mem_cons_self, hback t (List.mem_cons_of_mem c List.mem_cons_self)] at heq
    exact h.apart gate c t rfl (congrArg m.get? (Option.some.inj heq))
  · intro p hp p' hp' heq
    obtain ⟨q, -, rfl⟩ := Operation.mem_looseKeys_rename.mp hp
    obtain ⟨q', -, rfl⟩ := Operation.mem_looseKeys_rename.mp hp'
    have hq : q = q' := by
      have hkeep := congrFun hm.keep_inverse
      exact (hkeep q).symm.trans (heq.trans (hkeep q'))
    rw [hq]
  · intro tags name encoded hop
    exact (h.still tags name encoded (Operation.eq_of_rename_eq_changeDevice hop)).inverse

/-- Where a mapping permits an operation, it is injective on the dictionaries that it renames. -/
theorem IsInjective.keysApart (hm : m.IsInjective) (hm' : m'.IsInjective) (h : m.Permits op)
    (h' : m'.Permits (op.rename m.keep)) : op.KeysApart (m'.keep ∘ m.keep) where
  strict := by
    intro p hp q hq heq
    -- Both mappings know these qubits, and only there are they injective: elsewhere a qubit that is
    -- kept may be the image of another.
    have hkeep : m.keep p = m.keep q := hm'.injOn_keep
      (h'.mapped _ (Operation.mem_strictQubits_rename.mpr ⟨p, hp, rfl⟩))
      (h'.mapped _ (Operation.mem_strictQubits_rename.mpr ⟨q, hq, rfl⟩)) heq
    exact hm.injOn_keep (h.mapped p hp) (h.mapped q hq) hkeep
  loose := h.injOn_comp h'

end Mapping

/-- Remapping respects the identity, composition and inverses: a mapping that moves nothing gives
the operation back, injective mappings one after another do what their composition does, and the
inverse of a permutation undoes what it has done. -/
theorem Operation.remap_functorial [Numeric R] (op : Operation R) :
    (∀ m : Mapping, op.IsValid → m.IsIdentity →
      (∀ n ∈ op.nested, ∀ q ∈ n.strictQubits, q ∈ m.keys) → op.remap m = .ok op) ∧
    (∀ (m m' : Mapping) (a b : Operation R), m.IsInjective → m'.IsInjective →
      op.remap m = .ok a → a.remap m' = .ok b → op.remap (m.andThen m') = .ok b) ∧
    ∀ (m : Mapping) (a : Operation R), m.IsPermutation →
      op.remap m = .ok a → a.remap m.inverse = .ok op := by
  refine ⟨?_, ?_, ?_⟩
  · intro m hvalid hm hmapped
    refine remap_eq_ok.mpr ⟨hm.permits hvalid hmapped, ?_⟩
    rw [hm.keep_eq_id, op.rename_id]
  · intro m m' a b hm hm' ha hb
    obtain ⟨hpermits, rfl⟩ := remap_eq_ok.mp ha
    obtain ⟨hpermits', rfl⟩ := remap_eq_ok.mp hb
    -- What the second mapping is asked for by the result of the first, it is asked for by each
    -- operation inside after its own renaming.
    rw [op.nested_rename, List.forall_mem_map] at hpermits'
    refine remap_eq_ok.mpr ⟨fun n hn => (hpermits n hn).andThen (hpermits' n hn), ?_⟩
    rw [Mapping.keep_andThen]
    exact rename_rename fun n hn => hm.keysApart hm' (hpermits n hn) (hpermits' n hn)
  · intro m a hm ha
    obtain ⟨hpermits, rfl⟩ := remap_eq_ok.mp ha
    refine remap_eq_ok.mpr ⟨?_, ?_⟩
    · rw [op.nested_rename, List.forall_mem_map]
      exact fun n hn => hm.permits_inverse (hpermits n hn)
    · rw [rename_rename, hm.keep_inverse, op.rename_id]
      intro n hn
      rw [hm.keep_inverse]
      exact ⟨Set.injOn_id _, Set.injOn_id _⟩

/-- A measured product around a controlled gate and a reordered block, on three qubits in turn. -/
theorem Operation.remap_functorial_turn :
    let turn : Mapping := Dict.ofList [(0, 1), (1, 2), (2, 0)]
    let still : Mapping := Dict.ofList [(0, 0), (1, 1), (2, 2)]
    let product (p q r : Nat) : Operation Float :=
      .block (.pauliProduct (Dict.ofList [(p, 1), (q, 3)]) "ro")
        [.block (.controlled p) [.record (.twoQubit .cnot q r)],
          .record (.startDecompositionBlock [p, q] (Dict.ofList [(r, p)]))]
    (product 0 1 2).remap still = .ok (product 0 1 2) ∧
    (product 0 1 2).remap (turn.andThen turn) = .ok (product 2 0 1) ∧
    (product 1 2 0).remap turn.inverse = .ok (product 0 1 2) := by
  intro turn still product
  have hvalid : (product 0 1 2).IsValid := by
    intro r hr
    have hr : r = .twoQubit .cnot 1 2 ∨
        r = .startDecompositionBlock [0, 1] (Dict.ofList [(2, 0)]) := by
      simpa [product, Operation.nested, Circuit.nested] using hr
    rcases hr with rfl | rfl <;> rfl
  have hmapped : ∀ n ∈ (product 0 1 2).nested, ∀ q ∈ n.strictQubits, q ∈ still.keys := by
    simp only [product, Operation.nested, Circuit.nested]
    decide
  have hturn : (product 0 1 2).remap turn = .ok (product 1 2 0) := rfl
  obtain ⟨hidentity, hcomposition, hinverse⟩ := (product 0 1 2).remap_functorial
  exact ⟨hidentity still hvalid (by decide) hmapped,
    hcomposition turn turn _ _ (by decide) (by decide) hturn rfl, hinverse turn _ (by decide) hturn⟩

end QuantumOps
