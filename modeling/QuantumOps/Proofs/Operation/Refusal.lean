import QuantumOps.Proofs.Operation.Remapping

/-! Why a remapping fails. Every error comes from one operation inside, at any depth, that does not
permit the mapping, and tells which of its qubits is to blame. -/
namespace QuantumOps

variable {R : Type}

namespace Mapping

variable {m : Mapping} {q : Nat} {qs : List Nat} {e : RemapError}

theorem strict_eq_error : m.strict q = .error e ↔ q ∉ m.keys ∧ e = .missing q := by
  rw [strict, ← Dict.get?_eq_none]
  cases m.get? q with
  | some p => simp
  | none => simp [eq_comm]

theorem strictList_eq_error (h : m.strictList qs = .error e) :
    ∃ q ∈ qs, q ∉ m.keys ∧ e = .missing q := by
  obtain ⟨q, hq, he⟩ := exists_of_mapM_eq_error h
  exact ⟨q, hq, strict_eq_error.mp he⟩

theorem firstMoved?_eq_some (h : m.firstMoved? = some q) : q ∈ m.keys ∧ m.keep q ≠ q := by
  obtain ⟨⟨q, p⟩, hfind, rfl⟩ := Option.map_eq_some_iff.mp h
  have hget : m.get? q = some p := Dict.get?_eq_some.mpr (List.mem_of_find?_eq_some hfind)
  have hne : q ≠ p := by simpa using List.find?_some hfind
  refine ⟨Dict.mem_keys.mpr ⟨p, hget⟩, ?_⟩
  rw [keep_of_get? hget]
  exact hne.symm

section
variable {V : Type} {d : Dict Nat V}

theorem strictEntries_eq_error (h : m.strictEntries d = .error e) :
    ∃ q ∈ d.keys, q ∉ m.keys ∧ e = .missing q := by
  obtain ⟨before, entry, after, renamed, heq, -, he⟩ :=
    exists_of_foldlM_eq_error (f := m.strictEntry) h
  have hmem : entry ∈ d.entries := by simp [heq]
  rcases bind_eq_error.mp he with hstrict | ⟨key, -, hpure⟩
  · exact ⟨entry.1, List.mem_map_of_mem hmem, strict_eq_error.mp hstrict⟩
  · cases hpure

/-- Entries collide at a key when an entry before has come to that key. -/
theorem keepEntries_eq_error {value : V → V} {entries : String}
    (h : m.keepEntries value entries d = .error e) : ∃ p ∈ d.keys, ∃ q ∈ d.keys,
      p ≠ q ∧ m.keep p = m.keep q ∧ e = .collision entries (m.keep q) := by
  obtain ⟨before, entry, after, renamed, heq, hbefore, he⟩ :=
    exists_of_foldlM_eq_error (f := m.keepEntry value entries) h
  have hkeys : d.keys = before.map Prod.fst ++ entry.1 :: after.map Prod.fst := by
    rw [Dict.keys, heq, List.map_append, List.map_cons]
  rw [keepEntry] at he
  split at he
  · rename_i hsome
    cases he
    obtain ⟨-, rfl⟩ := foldlM_keepEntry_eq_ok.mp hbefore
    have hkey := Dict.mem_keys.mpr (Option.isSome_iff_exists.mp hsome)
    rcases Dict.mem_keys_addRenamed.mp hkey with hempty | ⟨entry', hmem, hkeep⟩
    · cases hempty
    · have hne : entry'.1 ≠ entry.1 := by
        have hnodup := d.nodup_keys
        rw [hkeys] at hnodup
        exact (List.nodup_append.mp hnodup).2.2 _ (List.mem_map_of_mem hmem) _ List.mem_cons_self
      refine ⟨entry'.1, ?_, entry.1, ?_, hne, hkeep, rfl⟩
      · rw [hkeys]
        exact List.mem_append_left _ (List.mem_map_of_mem hmem)
      · rw [hkeys]
        exact List.mem_append_right _ List.mem_cons_self
  · cases he

end
end Mapping

/-- How errors name the keys of a dictionary that the operation need not act on. -/
def Operation.looseName : Operation R → String
  | .record (.startDecompositionBlock ..) => "reordering_dictionary"
  | _ => "qubit_mapping"

/-- Why a mapping does not rename the qubits that an operation has itself, as the error tells it. -/
inductive Mapping.Refuses (m : Mapping) : Operation R → RemapError → Prop
  /-- The mapping does not know the qubit. -/
  | missing {op : Operation R} {q : Nat} (strict : q ∈ op.strictQubits) (unknown : q ∉ m.keys) :
    Refuses m op (.missing q)
  /-- Control and target become the same qubit. -/
  | gate {gate : TwoGate (Scalar R)} {c t p : Nat} (control : m.get? c = some p)
    (target : m.get? t = some p) :
    Refuses m (.record (.twoQubit gate c t)) (.collision gate.name p)
  /-- Two keys of a dictionary become the same qubit. -/
  | dictionary {op : Operation R} {p q : Nat} (first : p ∈ op.looseKeys)
    (second : q ∈ op.looseKeys) (different : p ≠ q) (equal : m.keep p = m.keep q) :
    Refuses m op (.collision op.looseName (m.keep q))
  /-- A qubit moves, and with it that of an instruction to a device. -/
  | device {tags : List String} {name : String} {encoded : List UInt8} {q : Nat}
    (mem : q ∈ m.keys) (moved : m.keep q ≠ q) :
    Refuses m (.record (.changeDevice tags name encoded)) (.missing q)

variable {m : Mapping} {e : RemapError}

/-- A refusal is a reason not to permit the mapping. -/
theorem Mapping.Refuses.not_permits {op : Operation R} (h : m.Refuses op e) : ¬ m.Permits op := by
  intro hpermits
  cases h with
  | missing strict unknown => exact unknown (hpermits.mapped _ strict)
  | gate control target => exact hpermits.apart _ _ _ rfl (control.trans target.symm)
  | dictionary first second different equal =>
    exact different (hpermits.injective first second equal)
  | device mem moved =>
    exact moved (congrFun (hpermits.still _ _ _ rfl).keep_eq_id _)

theorem Record.remap_eq_error {r : Record R} (h : r.remap m = .error e) :
    m.Refuses (.record r) e := by
  cases r with
  | singleQubit | noise | activeReset | measureQubit =>
    have h := bind_pure_eq_error.mp h
    obtain ⟨hq, rfl⟩ := Mapping.strict_eq_error.mp h
    exact .missing List.mem_cons_self hq
  | overrotation | stopParallelBlock | sleep | stopDecompositionBlock =>
    have h := bind_pure_eq_error.mp h
    obtain ⟨q, hq, hunknown, rfl⟩ := Mapping.strictList_eq_error h
    exact .missing hq hunknown
  | twoQubit gate c t =>
    rcases bind_eq_error.mp h with h | ⟨c', hcontrol, h⟩
    · obtain ⟨hq, rfl⟩ := Mapping.strict_eq_error.mp h
      exact .missing List.mem_cons_self hq
    · rcases bind_eq_error.mp h with h | ⟨t', htarget, h⟩
      · obtain ⟨hq, rfl⟩ := Mapping.strict_eq_error.mp h
        exact .missing (List.mem_cons_of_mem c List.mem_cons_self) hq
      · obtain ⟨hc, rfl⟩ := Mapping.strict_eq_ok.mp hcontrol
        obtain ⟨ht, rfl⟩ := Mapping.strict_eq_ok.mp htarget
        split at h
        · rename_i heq
          cases h
          exact .gate (Mapping.get?_of_mem hc) (heq ▸ Mapping.get?_of_mem ht)
        · cases h
  | startDecompositionBlock qs reordering =>
    rcases bind_eq_error.mp h with h | ⟨d, -, h⟩
    · obtain ⟨p, hp, q, hq, hne, heq, rfl⟩ := Mapping.keepEntries_eq_error h
      exact .dictionary hp hq hne heq
    · have h := bind_pure_eq_error.mp h
      obtain ⟨q, hq, hunknown, rfl⟩ := Mapping.strictList_eq_error h
      exact .missing hq hunknown
  | changeDevice tags name encoded =>
    rw [remap] at h
    split at h
    · rename_i q hmoved
      cases h
      obtain ⟨hmem, hne⟩ := Mapping.firstMoved?_eq_some hmoved
      exact .device hmem hne
    · cases h
  | repeatedMeasurement readout number indices =>
    cases indices with
    | none => cases h
    | some indices =>
      have h := bind_pure_eq_error.mp h
      obtain ⟨p, hp, q, hq, hne, heq, rfl⟩ := Mapping.keepEntries_eq_error h
      exact .dictionary hp hq hne heq
  | _ => cases h

theorem Block.remap_eq_error {b : Block R} (body : List (Operation R)) (h : b.remap m = .error e) :
    m.Refuses (.block b body) e := by
  cases b with
  | controlled q =>
    have h := bind_pure_eq_error.mp h
    obtain ⟨hq, rfl⟩ := Mapping.strict_eq_error.mp h
    exact .missing List.mem_cons_self hq
  | pauliProduct paulis readout =>
    have h := bind_pure_eq_error.mp h
    obtain ⟨q, hq, hunknown, rfl⟩ := Mapping.strictEntries_eq_error h
    exact .missing hq hunknown
  | _ => cases h

mutual

/-- Every error comes from an operation inside that refuses the mapping. -/
theorem Operation.remap_eq_error : ∀ {op : Operation R}, op.remap m = .error e →
    ∃ n ∈ op.nested, m.Refuses n e
  | .record r, h => by
    rw [Operation.remap] at h
    have h := bind_pure_eq_error.mp h
    exact ⟨_, List.mem_singleton_self _, r.remap_eq_error h⟩
  | .block b body, h => by
    rw [Operation.remap] at h
    rcases bind_eq_error.mp h with h | ⟨b', -, h⟩
    · exact ⟨_, List.mem_cons_self, b.remap_eq_error body h⟩
    · rcases bind_eq_error.mp h with h | ⟨body', -, ⟨⟩⟩
      obtain ⟨n, hn, hrefuses⟩ := Circuit.remap_eq_error h
      exact ⟨n, List.mem_cons_of_mem _ hn, hrefuses⟩
  | .annotated op note, h => by
    rw [Operation.remap] at h
    have h := bind_pure_eq_error.mp h
    obtain ⟨n, hn, hrefuses⟩ := Operation.remap_eq_error h
    exact ⟨n, List.mem_cons_of_mem _ hn, hrefuses⟩

theorem Circuit.remap_eq_error : ∀ {c : List (Operation R)}, Circuit.remap m c = .error e →
    ∃ n ∈ Circuit.nested c, m.Refuses n e
  | [], h => by
    rw [Circuit.remap] at h
    cases h
  | op :: rest, h => by
    rw [Circuit.remap] at h
    rcases bind_eq_error.mp h with h | ⟨op', -, h⟩
    · obtain ⟨n, hn, hrefuses⟩ := Operation.remap_eq_error h
      exact ⟨n, List.mem_append_left _ hn, hrefuses⟩
    · rcases bind_eq_error.mp h with h | ⟨rest', -, ⟨⟩⟩
      obtain ⟨n, hn, hrefuses⟩ := Circuit.remap_eq_error h
      exact ⟨n, List.mem_append_right _ hn, hrefuses⟩

end

/-- An operation is renamed just when every operation inside permits the mapping. Otherwise the
remapping fails as a whole, with an error by which one of them refuses it. -/
theorem Operation.remap_succeeds_iff (op : Operation R) (m : Mapping) :
    ((∃ op', op.remap m = .ok op') ↔ ∀ n ∈ op.nested, m.Permits n) ∧
    ((∃ e, op.remap m = .error e ∧ ∃ n ∈ op.nested, m.Refuses n e) ↔
      ¬ ∀ n ∈ op.nested, m.Permits n) := by
  refine ⟨?_, ?_, ?_⟩
  · constructor
    · rintro ⟨op', h⟩
      exact (remap_eq_ok.mp h).1
    · intro h
      exact ⟨op.rename m.keep, remap_eq_ok.mpr ⟨h, rfl⟩⟩
  · rintro ⟨e, -, n, hn, hrefuses⟩ hpermits
    exact hrefuses.not_permits (hpermits n hn)
  · intro h
    cases hop : op.remap m with
    | ok op' => exact absurd (remap_eq_ok.mp hop).1 h
    | error e => exact ⟨e, rfl, remap_eq_error hop⟩

/-- A readout of the whole state involves the whole register whatever its circuit does, but a
mapping must know the qubits of that circuit all the same. -/
example : (Operation.block (.readState .stateVector "ro") [.record (.activeReset 1)] :
    Operation Float).remap Dict.empty = .error (.missing 1) := rfl

end QuantumOps
