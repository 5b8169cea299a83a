import QuantumOps.Numeric.Float
import QuantumOps.Proofs.Operation.Involvement

/-! What remapping does to a circuit and the qubit that controls it. Both are renamed by the same
mapping, each on its own, so the circuit comes to act on its control just when the mapping makes a
qubit of the circuit and the control one. For the two qubits of a gate this is refused. -/
namespace QuantumOps

variable {R : Type} {m : Mapping}

/-- A circuit involves after a remapping what its qubits have become. -/
theorem Circuit.involved_remap_eq_only {c c' : Circuit R} {s : QubitSet}
    (h : Circuit.involved c = .only s) (hc : Circuit.remap m c = .ok c') :
    ∃ s', Circuit.involved c' = .only s' ∧ ∀ p, p ∈ s' ↔ ∃ q ∈ s, m.get? q = some p := by
  -- A conditional block adds nothing to what its circuit involves.
  have hinvolved : ∀ body : Circuit R,
      (Operation.block (.conditional "" 0) body).involved = Circuit.involved body := by
    intro body
    rw [Operation.involved]
    exact Involved.none_join
  have hop : (Operation.block (.conditional "" 0) c).remap m =
      .ok (.block (.conditional "" 0) c') := by
    rw [Operation.remap, hc]
    rfl
  obtain ⟨s', hs', hmem⟩ := Operation.involved_remap_eq_only ((hinvolved c).trans h) hop
  exact ⟨s', (hinvolved c').symm.trans hs', hmem⟩

namespace Operation

theorem remap_controlled_eq_ok {q : Nat} {body : Circuit R} {op' : Operation R} :
    (block (.controlled q) body).remap m = .ok op' ↔ ∃ q' body', m.get? q = some q' ∧
      Circuit.remap m body = .ok body' ∧ op' = block (.controlled q') body' := by
  rw [Operation.remap, bind_eq_ok]
  constructor
  · rintro ⟨b', hb', h⟩
    obtain ⟨q', hq', hb'⟩ := bind_eq_ok.mp hb'
    obtain ⟨hmem, rfl⟩ := Mapping.strict_eq_ok.mp hq'
    obtain ⟨body', hbody, h⟩ := bind_eq_ok.mp h
    cases hb'
    cases h
    exact ⟨_, body', Mapping.get?_of_mem hmem, hbody, rfl⟩
  · rintro ⟨q', body', hq', hbody, rfl⟩
    have hstrict : m.strict q = .ok q' :=
      Mapping.strict_eq_ok.mpr ⟨Dict.mem_keys.mpr ⟨q', hq'⟩, (Mapping.keep_of_get? hq').symm⟩
    refine ⟨_, bind_eq_ok.mpr ⟨q', hstrict, rfl⟩, ?_⟩
    rw [hbody]
    rfl

theorem remap_twoQubit_of_merged {g : TwoGate (Scalar R)} {c t p : Nat} (hc : m.get? c = some p)
    (ht : m.get? t = some p) :
    (record (.twoQubit g c t)).remap m = .error (.collision g.name p) := by
  have hstrict : ∀ {q}, m.get? q = some p → m.strict q = .ok p := by
    intro q hq
    rw [Mapping.strict, hq]
  rw [Operation.remap, Record.remap, hstrict hc, hstrict ht]
  exact congrArg (· >>= fun r => pure (record r)) (if_pos rfl)

end Operation

/-- Control and circuit are remapped whenever each of them can be. A circuit that does not act on
its control stays so just when none of its qubits becomes the same as the control, as with every
injective mapping. A gate on two qubits that become one is refused. -/
theorem Operation.remap_controlled (m : Mapping) (q : Nat) (body : Circuit R) :
    ((∃ op', (block (.controlled q) body).remap m = .ok op') ↔
      q ∈ m.keys ∧ ∃ body', Circuit.remap m body = .ok body') ∧
    (∀ s, Circuit.involved body = .only s → q ∉ s →
      ∀ op', (block (.controlled q) body).remap m = .ok op' →
        ∃ q' body' s', op' = block (.controlled q') body' ∧ m.get? q = some q' ∧
          Circuit.remap m body = .ok body' ∧ Circuit.involved body' = .only s' ∧
          (q' ∉ s' ↔ ∀ p ∈ s, m.get? p ≠ m.get? q) ∧ (m.IsInjective → q' ∉ s')) ∧
    ∀ (g : TwoGate (Scalar R)) c t p, m.get? c = some p → m.get? t = some p →
      (record (.twoQubit g c t)).remap m = .error (.collision g.name p) := by
  refine ⟨?_, ?_, fun g c t p => remap_twoQubit_of_merged⟩
  · constructor
    · rintro ⟨op', h⟩
      obtain ⟨q', body', hq', hbody, -⟩ := remap_controlled_eq_ok.mp h
      exact ⟨Dict.mem_keys.mpr ⟨q', hq'⟩, body', hbody⟩
    · rintro ⟨hq, body', hbody⟩
      exact ⟨_, remap_controlled_eq_ok.mpr ⟨_, body', Mapping.get?_of_mem hq, hbody, rfl⟩⟩
  · intro s hs hq op' h
    obtain ⟨q', body', hq', hbody, rfl⟩ := remap_controlled_eq_ok.mp h
    obtain ⟨s', hs', hmem⟩ := Circuit.involved_remap_eq_only hs hbody
    have hapart : q' ∉ s' ↔ ∀ p ∈ s, m.get? p ≠ m.get? q := by
      simp only [hmem, hq', not_exists, not_and, ne_eq]
    refine ⟨q', body', s', rfl, hq', hbody, hs', hapart, fun hinj => hapart.mpr ?_⟩
    -- A qubit of the circuit that becomes the control would be the control.
    intro p hp heq
    have hpq : p = q := hinj p q q' (heq.trans hq') hq'
    exact hq (hpq ▸ hp)

/-- A gate under the control of another qubit, on three qubits in turn. -/
theorem Operation.remap_controlled_turn :
    let turn : Mapping := Dict.ofList [(0, 1), (1, 2), (2, 0)]
    let controlled (q c t : Nat) : Operation Float :=
      .block (.controlled q) [.record (.twoQubit .cnot c t)]
    (controlled 0 1 2).remap turn = .ok (controlled 1 2 0) ∧
    Circuit.involved [(.record (.twoQubit .cnot 2 0) : Operation Float)] =
      .only (QubitSet.ofList [0, 2]) ∧
    1 ∉ QubitSet.ofList [0, 2] := by
  intro turn controlled
  have hremap : (controlled 0 1 2).remap turn = .ok (controlled 1 2 0) := rfl
  obtain ⟨-, hapart, -⟩ :=
    remap_controlled turn 0 [(.record (.twoQubit .cnot 1 2) : Operation Float)]
  obtain ⟨q', body', s', heq, -, -, hs', -, hinj⟩ :=
    hapart (QubitSet.ofList [1, 2]) rfl (by decide) _ hremap
  cases heq
  have hset : s' = QubitSet.ofList [0, 2] := (Involved.only.inj hs').symm
  exact ⟨hremap, rfl, hset ▸ hinj (by decide)⟩

/-- A gate under the control of another qubit comes under the control of its own when a mapping
makes the two qubits one. -/
theorem Operation.remap_controlled_merged :
    let merge : Mapping := Dict.ofList [(0, 2), (1, 2)]
    let controlled (q p : Nat) : Operation Float :=
      .block (.controlled q) [.record (.singleQubit .pauliX p)]
    let involved (p : Nat) : Involved :=
      Circuit.involved [(.record (.singleQubit .pauliX p) : Operation Float)]
    involved 1 = .only (QubitSet.ofList [1]) ∧ 0 ∉ QubitSet.ofList [1] ∧
    (controlled 0 1).remap merge = .ok (controlled 2 2) ∧
    involved 2 = .only (QubitSet.ofList [2]) ∧ 2 ∈ QubitSet.ofList [2] := by
  intro merge controlled involved
  exact ⟨rfl, by decide, rfl, rfl, by decide⟩

end QuantumOps
