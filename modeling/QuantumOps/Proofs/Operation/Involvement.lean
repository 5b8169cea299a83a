import QuantumOps.Operation.Involvement
import QuantumOps.Proofs.Operation.Remapping
import QuantumOps.Proofs.Qubit.Involved

/-! Which qubits an operation involves, as a sum over the operations inside that count. Each of them
adds the qubits that it acts on itself, or the whole register. What a renamed operation involves is
therefore the renamed qubits, and a renaming must know all of them. -/
namespace QuantumOps

variable {R : Type}

/-- The names of the operations that act on the whole register. -/
def registerWide : List String :=
  ["PragmaSetStateVector", "PragmaSetDensityMatrix", "PragmaRepeatGate", "PragmaChangeDevice",
    "PragmaGetStateVector", "PragmaGetDensityMatrix", "PragmaGetOccupationProbability",
    "PragmaRepeatedMeasurement"]

/-- What an operation adds itself to what is involved. -/
def Operation.share (op : Operation R) : Involved :=
  if op.name ∈ registerWide then .all else .ofList op.strictQubits

/-- What operations involve together that each involve their share. -/
def Circuit.shares (l : List (Operation R)) : Involved :=
  l.foldr (fun op total => op.share.join total) .none

/-- Whether the circuit of a block counts, too. -/
def Block.isOpen : Block R → Bool
  | readState .. => false
  | _ => true

mutual

/-- The operations inside that count for what is involved, the operation itself first. -/
def Operation.visited : Operation R → List (Operation R)
  | .record r => [.record r]
  | .block b body => .block b body :: if b.isOpen then Circuit.visited body else []
  | .annotated op note => .annotated op note :: op.visited

def Circuit.visited : List (Operation R) → List (Operation R)
  | [] => []
  | op :: rest => op.visited ++ Circuit.visited rest

end

section

theorem SingleGate.name_not_mem_registerWide {g : SingleGate (Scalar R)} :
    g.name ∉ registerWide := by
  cases g <;> simp [name, registerWide]

theorem TwoGate.name_not_mem_registerWide {g : TwoGate (Scalar R)} : g.name ∉ registerWide := by
  cases g <;> simp [name, registerWide]

theorem Noise.name_not_mem_registerWide {kind : Noise R} : kind.name ∉ registerWide := by
  cases kind <;> simp [name, registerWide]

theorem RegisterType.definitionName_not_mem_registerWide {type : RegisterType} :
    type.definitionName ∉ registerWide := by
  cases type <;> simp [definitionName, registerWide]

theorem StateQuantity.readoutName_mem_registerWide {quantity : StateQuantity} :
    quantity.readoutName ∈ registerWide := by
  cases quantity <;> simp [readoutName, registerWide]

theorem Record.involved_eq_share (r : Record R) : r.involved = (Operation.record r).share := by
  cases r with
  | singleQubit => exact (if_neg SingleGate.name_not_mem_registerWide).symm
  | twoQubit => exact (if_neg TwoGate.name_not_mem_registerWide).symm
  | noise => exact (if_neg Noise.name_not_mem_registerWide).symm
  | definition => exact (if_neg RegisterType.definitionName_not_mem_registerWide).symm
  | readState => exact (if_pos StateQuantity.readoutName_mem_registerWide).symm
  | _ => rfl

theorem Block.involved_eq_share (b : Block R) (body : List (Operation R)) :
    b.involved = (Operation.block b body).share := by
  cases b with
  | readState => exact (if_pos StateQuantity.readoutName_mem_registerWide).symm
  | _ => rfl

/-- The circuit of a block does not count just where the block involves the whole register. -/
theorem Block.share_eq_all {b : Block R} (body : List (Operation R)) (h : b.isOpen = false) :
    (Operation.block b body).share = .all := by
  cases b with
  | readState => exact if_pos StateQuantity.readoutName_mem_registerWide
  | _ => cases h

theorem Circuit.shares_cons (op : Operation R) (l : List (Operation R)) :
    shares (op :: l) = op.share.join (shares l) := rfl

theorem Circuit.shares_append (l k : List (Operation R)) :
    shares (l ++ k) = (shares l).join (shares k) := by
  induction l with
  | nil => exact Involved.none_join.symm
  | cons op l ih => rw [List.cons_append, shares_cons, shares_cons, ih, Involved.join_assoc]

mutual

/-- What an operation involves is what those inside that count involve together. -/
theorem Operation.involved_eq_shares : ∀ op : Operation R,
    op.involved = Circuit.shares op.visited
  | .record r => by
    rw [Operation.involved, r.involved_eq_share]
    exact Involved.join_none.symm
  | .block b body => by
    rw [Operation.involved, Circuit.involvedFrom_eq_shares body, Involved.none_join,
      Operation.visited, b.involved_eq_share body, Circuit.shares_cons]
    -- A circuit that does not count could add nothing to the whole register.
    cases hopen : b.isOpen with
    | true => rfl
    | false =>
      rw [b.share_eq_all body hopen]
      rfl
  | .annotated op note => by
    rw [Operation.involved, op.involved_eq_shares]
    exact Involved.none_join.symm

/-- Joining stops at the whole register, to which nothing could be added. -/
theorem Circuit.involvedFrom_eq_shares : ∀ (c : List (Operation R)) {sofar : Involved},
    Circuit.involvedFrom sofar c = sofar.join (Circuit.shares (Circuit.visited c))
  | [], sofar => Involved.join_none.symm
  | op :: rest, sofar => by
    rw [Circuit.involvedFrom, Circuit.visited, Circuit.shares_append, ← Involved.join_assoc,
      ← op.involved_eq_shares]
    cases sofar.join op.involved with
    | all => rfl
    | only s => exact Circuit.involvedFrom_eq_shares rest

end

variable {l : List (Operation R)} {s : QubitSet}

theorem Circuit.shares_eq_all : shares l = .all ↔ ∃ n ∈ l, n.name ∈ registerWide := by
  induction l with
  | nil => exact ⟨nofun, nofun⟩
  | cons op l ih =>
    have hshare : op.share = .all ↔ op.name ∈ registerWide := by
      rw [Operation.share]
      split <;> simp [*, Involved.ofList]
    rw [shares_cons, Involved.join_eq_all, ih, hshare, List.exists_mem_cons_iff]

theorem Circuit.mem_of_shares_eq_only (h : shares l = .only s) {q : Nat} :
    q ∈ s ↔ ∃ n ∈ l, q ∈ n.strictQubits := by
  induction l generalizing s with
  | nil =>
    cases h
    simp
  | cons op l ih =>
    obtain ⟨t, u, ht, hu, rfl⟩ := Involved.join_eq_only.mp h
    have hshare : q ∈ t ↔ q ∈ op.strictQubits := by
      rw [Operation.share] at ht
      split at ht
      · cases ht
      · cases ht
        exact QubitSet.mem_ofList
    rw [QubitSet.mem_union, hshare, ih hu, List.exists_mem_cons_iff]

end

namespace Operation

variable {op : Operation R} {s : QubitSet} {q : Nat}

theorem involved_eq_all : op.involved = .all ↔ ∃ n ∈ op.visited, n.name ∈ registerWide := by
  rw [op.involved_eq_shares, Circuit.shares_eq_all]

theorem mem_of_involved_eq_only (h : op.involved = .only s) :
    q ∈ s ↔ ∃ n ∈ op.visited, q ∈ n.strictQubits :=
  Circuit.mem_of_shares_eq_only (op.involved_eq_shares ▸ h)

end Operation

mutual

theorem Operation.nested_of_visited : ∀ {op n : Operation R}, n ∈ op.visited → n ∈ op.nested
  | .record r, n, h => h
  | .block b body, n, h => by
    rw [Operation.visited] at h
    rw [Operation.nested]
    rcases List.mem_cons.mp h with rfl | h
    · exact List.mem_cons_self
    · split at h
      · exact List.mem_cons_of_mem _ (Circuit.nested_of_visited h)
      · cases h
  | .annotated op note, n, h => by
    rw [Operation.visited] at h
    rw [Operation.nested]
    rcases List.mem_cons.mp h with rfl | h
    · exact List.mem_cons_self
    · exact List.mem_cons_of_mem _ (Operation.nested_of_visited h)

theorem Circuit.nested_of_visited : ∀ {c : List (Operation R)} {n : Operation R},
    n ∈ Circuit.visited c → n ∈ Circuit.nested c
  | [], n, h => h
  | op :: rest, n, h => by
    rw [Circuit.visited] at h
    rw [Circuit.nested]
    rcases List.mem_append.mp h with h | h
    · exact List.mem_append_left _ (Operation.nested_of_visited h)
    · exact List.mem_append_right _ (Circuit.nested_of_visited h)

end

section
variable {f : Nat → Nat}

theorem Record.name_rename (r : Record R) : (r.rename f).name = r.name := by
  cases r with
  | repeatedMeasurement readout number indices => cases indices <;> rfl
  | _ => rfl

theorem Block.name_rename (b : Block R) : (b.rename f).name = b.name := by cases b <;> rfl

theorem Block.isOpen_rename (b : Block R) : (b.rename f).isOpen = b.isOpen := by cases b <;> rfl

theorem Operation.name_rename (op : Operation R) : (op.rename f).name = op.name := by
  cases op with
  | record r =>
    rw [Operation.rename]
    exact r.name_rename
  | block b body =>
    rw [Operation.rename]
    exact b.name_rename
  | annotated op note => rw [Operation.rename, name, name]

mutual

theorem Operation.visited_rename : ∀ op : Operation R,
    (op.rename f).visited = op.visited.map (Operation.rename f)
  | .record r => rfl
  | .block b body => by
    rw [Operation.visited, List.map_cons, Operation.rename, Operation.visited, b.isOpen_rename,
      Circuit.visited_rename body]
    split <;> rfl
  | .annotated op note => by
    rw [Operation.visited, List.map_cons, Operation.rename, Operation.visited,
      Operation.visited_rename op]

theorem Circuit.visited_rename : ∀ c : List (Operation R),
    Circuit.visited (Circuit.rename f c) = (Circuit.visited c).map (Operation.rename f)
  | [] => rfl
  | op :: rest => by
    rw [Circuit.visited, List.map_append, Circuit.rename, Circuit.visited,
      Operation.visited_rename op, Circuit.visited_rename rest]

end

end

namespace Operation

variable {op op' : Operation R} {s : QubitSet} {m : Mapping} {f : Nat → Nat}

theorem involved_rename_eq_all : (op.rename f).involved = .all ↔ op.involved = .all := by
  rw [involved_eq_all, involved_eq_all, visited_rename]
  simp only [List.mem_map, exists_exists_and_eq_and, name_rename]

/-- A renamed operation involves the renamed qubits. -/
theorem involved_rename_eq_only (h : op.involved = .only s) :
    ∃ s', (op.rename f).involved = .only s' ∧ ∀ p, p ∈ s' ↔ ∃ q ∈ s, f q = p := by
  cases hrename : (op.rename f).involved with
  | all =>
    rw [involved_rename_eq_all.mp hrename] at h
    cases h
  | only s' =>
    refine ⟨s', rfl, fun p => ?_⟩
    rw [mem_of_involved_eq_only hrename, visited_rename]
    simp only [List.mem_map, exists_exists_and_eq_and, mem_strictQubits_rename,
      mem_of_involved_eq_only h]
    constructor
    · rintro ⟨n, hn, q, hq, hp⟩
      exact ⟨q, ⟨n, hn, hq⟩, hp⟩
    · rintro ⟨q, ⟨n, hn, hq⟩, hp⟩
      exact ⟨n, hn, q, hq, hp⟩

/-- A mapping that renames an operation knows all qubits that it involves one by one. -/
theorem mem_keys_of_remap_eq_ok (h : op.involved = .only s) (hop : op.remap m = .ok op') :
    ∀ q ∈ s, q ∈ m.keys := by
  intro q hq
  obtain ⟨n, hn, hqn⟩ := (mem_of_involved_eq_only h).mp hq
  exact ((remap_eq_ok.mp hop).1 n (nested_of_visited hn)).mapped q hqn

theorem involved_remap_eq_only (h : op.involved = .only s) (hop : op.remap m = .ok op') :
    ∃ s', op'.involved = .only s' ∧ ∀ p, p ∈ s' ↔ ∃ q ∈ s, m.get? q = some p := by
  have hkeys := mem_keys_of_remap_eq_ok h hop
  obtain ⟨-, rfl⟩ := remap_eq_ok.mp hop
  obtain ⟨s', hs', hmem⟩ := involved_rename_eq_only (f := m.keep) h
  refine ⟨s', hs', fun p => (hmem p).trans ?_⟩
  constructor
  · rintro ⟨q, hq, rfl⟩
    exact ⟨q, hq, Mapping.get?_of_mem (hkeys q hq)⟩
  · rintro ⟨q, hq, hp⟩
    exact ⟨q, hq, Mapping.keep_of_get? hp⟩

theorem involved_eq_none :
    op.involved = .none ↔ ∀ n ∈ op.visited, n.name ∉ registerWide ∧ n.strictQubits = [] := by
  constructor
  · intro h n hn
    constructor
    · intro hname
      rw [involved_eq_all.mpr ⟨n, hn, hname⟩] at h
      cases h
    · refine List.eq_nil_iff_forall_not_mem.mpr fun q hq => ?_
      exact QubitSet.not_mem_empty q ((mem_of_involved_eq_only h).mpr ⟨n, hn, hq⟩)
  · intro h
    cases hop : op.involved with
    | all =>
      obtain ⟨n, hn, hname⟩ := involved_eq_all.mp hop
      exact absurd hname (h n hn).1
    | only s =>
      refine congrArg Involved.only (QubitSet.ext fun q => ?_)
      rw [mem_of_involved_eq_only hop]
      constructor
      · rintro ⟨n, hn, hq⟩
        rw [(h n hn).2] at hq
        cases hq
      · intro hq
        exact absurd hq (QubitSet.not_mem_empty q)

theorem involved_remap_eq_none (h : op.involved = .none) (hop : op.remap m = .ok op') :
    op'.involved = .none := by
  obtain ⟨s', hs', hmem⟩ := involved_remap_eq_only h hop
  rw [hs']
  refine congrArg Involved.only (QubitSet.ext fun p => ?_)
  rw [hmem]
  simp

end Operation

/-- An operation involves the whole register just when one that counts inside does so by its name,
and otherwise the qubits that those inside act on one by one. A remapping moves what is involved,
and it fails if it does not know a qubit that is. -/
theorem Operation.involved_exact (op : Operation R) :
    (op.involved = .all ↔ ∃ n ∈ op.visited, n.name ∈ registerWide) ∧
    (op.involved = .none ↔ ∀ n ∈ op.visited, n.name ∉ registerWide ∧ n.strictQubits = []) ∧
    (∀ s, op.involved = .only s → ∀ q, q ∈ s ↔ ∃ n ∈ op.visited, q ∈ n.strictQubits) ∧
    ∀ m : Mapping,
      (∀ op', op.remap m = .ok op' →
        (op.involved = .all → op'.involved = .all) ∧
        (op.involved = .none → op'.involved = .none) ∧
        ∀ s, op.involved = .only s →
          ∃ s', op'.involved = .only s' ∧ ∀ p, p ∈ s' ↔ ∃ q ∈ s, m.get? q = some p) ∧
      ∀ s, op.involved = .only s → ∀ q ∈ s, m.get? q = none → ∃ e, op.remap m = .error e := by
  refine ⟨involved_eq_all, involved_eq_none, ?_, fun m => ⟨fun op' hop => ⟨?_, ?_, ?_⟩, ?_⟩⟩
  · intro s h q
    exact mem_of_involved_eq_only h
  · intro h
    obtain ⟨-, rfl⟩ := remap_eq_ok.mp hop
    exact involved_rename_eq_all.mpr h
  · intro h
    exact involved_remap_eq_none h hop
  · intro s h
    exact involved_remap_eq_only h hop
  · intro s h q hq hunknown
    cases hop : op.remap m with
    | ok op' =>
      exact absurd (mem_keys_of_remap_eq_ok h hop q hq) (Dict.get?_eq_none.mp hunknown)
    | error e => exact ⟨e, rfl⟩

/-- A controlled gate and a decomposition whose dictionary does not count, and a readout after an
operation that does not count either. -/
theorem Operation.involved_exact_controlled :
    let turn : Mapping := Dict.ofList [(0, 1), (1, 2), (2, 0)]
    let controlled : Operation Float := .block (.controlled 0)
      [.record (.twoQubit .cnot 1 2),
        .record (.startDecompositionBlock [1] (Dict.ofList [(7, 2)]))]
    let readout : Operation Float :=
      .block (.readState .stateVector "ro") [.record (.activeReset 1)]
    (∀ q, q ∈ QubitSet.ofList [0, 1, 2] ↔ ∃ n ∈ controlled.visited, q ∈ n.strictQubits) ∧
    (∃ op' s', controlled.remap turn = .ok op' ∧ op'.involved = .only s' ∧
      ∀ p, p ∈ s' ↔ ∃ q ∈ QubitSet.ofList [0, 1, 2], turn.get? q = some p) ∧
    (∃ e, controlled.remap (Dict.ofList [(0, 1)]) = .error e) ∧
    ∃ op', readout.remap turn = .ok op' ∧ op'.involved = .all := by
  intro turn controlled readout
  have hinvolved : controlled.involved = .only (.ofList [0, 1, 2]) := rfl
  obtain ⟨-, -, hqubits, hremap⟩ := controlled.involved_exact
  obtain ⟨-, -, -, hreadout⟩ := readout.involved_exact
  obtain ⟨s', hs', hmem⟩ := ((hremap turn).1 _ rfl).2.2 _ hinvolved
  refine ⟨hqubits _ hinvolved, ⟨_, s', rfl, hs', hmem⟩, ?_, _, rfl, ?_⟩
  · exact (hremap _).2 _ hinvolved 1 (by decide) rfl
  · exact ((hreadout turn).1 _ rfl).1 rfl

end QuantumOps
