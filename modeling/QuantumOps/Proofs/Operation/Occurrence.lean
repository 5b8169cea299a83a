import QuantumOps.Numeric.Float
import QuantumOps.Proofs.Operation.Remapping

/-! The qubits that occur in an operation, at any depth. Remapping looks a mapping up at these only,
also where it fails and where it tells a qubit that the mapping has made; and it looks at none of
the other numbers of an operation. -/
namespace QuantumOps

/-- The map with every value changed. -/
def Dict.mapValues {K V W : Type} [LT K] (g : V → W) (d : Dict K V) : Dict K W :=
  ⟨d.entries.map fun e => (e.1, g e.2), List.pairwise_map.mpr d.sorted⟩

section
variable {R : Type}

/-- What the keys of a reordering are sent to. -/
def Record.looseValues : Record R → List Nat
  | startDecompositionBlock _ reordering => reordering.entries.map Prod.snd
  | _ => []

/-- The qubits in the fields of an operation itself. -/
def Operation.ownQubits : Operation R → List Nat
  | .record r => r.strictQubits ++ (r.looseKeys ++ r.looseValues)
  | .block b _ => b.strictQubits
  | .annotated .. => []

/-- The qubits that occur in an operation, inside and out. -/
def Operation.qubits (op : Operation R) : List Nat := op.nested.flatMap Operation.ownQubits

/-- An instruction to a device, the qubits of which are not known. -/
def Operation.IsChangeDevice : Operation R → Prop
  | .record (.changeDevice ..) => True
  | _ => False

/-- The record with zero for every number that is no qubit: places of readouts, counts and
lengths. -/
def Record.withoutCodes : Record R → Record R
  | setNumberOfMeasurements _ readout => setNumberOfMeasurements 0 readout
  | repeatGate _ => repeatGate 0
  | measureQubit q readout _ => measureQubit q readout 0
  | repeatedMeasurement readout _ indices =>
    repeatedMeasurement readout 0 (indices.map (Dict.mapValues fun _ => 0))
  | definition type name _ isOutput => definition type name 0 isOutput
  | r => r

/-- The block with zero for every number that is no qubit: Pauli matrices and the place of a
condition. -/
def Block.withoutCodes : Block R → Block R
  | conditional register _ => conditional register 0
  | pauliProduct paulis readout => pauliProduct (paulis.mapValues fun _ => 0) readout
  | b => b

mutual

/-- The operation with zero for every whole number that is no qubit, inside and out. -/
def Operation.withoutCodes : Operation R → Operation R
  | .record r => .record r.withoutCodes
  | .block b body => .block b.withoutCodes (Circuit.withoutCodes body)
  | .annotated op note => .annotated op.withoutCodes note

def Circuit.withoutCodes : List (Operation R) → List (Operation R)
  | [] => []
  | op :: rest => op.withoutCodes :: Circuit.withoutCodes rest

end

end

/-! Two mappings that agree on some qubits. -/

namespace Mapping

/-- The mappings have the same entries for the qubits, or none. -/
def AgreeOn (m m' : Mapping) (qs : List Nat) : Prop := ∀ q ∈ qs, m.get? q = m'.get? q

variable {m m' : Mapping} {q : Nat} {qs ps : List Nat}

theorem agreeOn_append : m.AgreeOn m' (qs ++ ps) ↔ m.AgreeOn m' qs ∧ m.AgreeOn m' ps :=
  List.forall_mem_append

theorem strict_congr (h : m.get? q = m'.get? q) : m.strict q = m'.strict q := by
  rw [strict, strict, h]

theorem keep_congr (h : m.get? q = m'.get? q) : m.keep q = m'.keep q := by
  rw [keep, keep, h]

theorem strictList_congr (h : m.AgreeOn m' qs) : m.strictList qs = m'.strictList qs :=
  mapM_congr fun q hq => strict_congr (h q hq)

theorem strictEntries_congr {V : Type} {d : Dict Nat V} (h : m.AgreeOn m' d.keys) :
    m.strictEntries d = m'.strictEntries d := by
  refine foldlM_congr (f := m.strictEntry) (g := m'.strictEntry) fun e he renamed => ?_
  rw [strictEntry, strictEntry, strict_congr (h e.1 (List.mem_map_of_mem he))]

theorem keepEntries_congr {V : Type} {value value' : V → V} {entries : String} {d : Dict Nat V}
    (h : m.AgreeOn m' d.keys) (hvalue : ∀ v ∈ d.entries.map Prod.snd, value v = value' v) :
    m.keepEntries value entries d = m'.keepEntries value' entries d := by
  refine foldlM_congr (f := m.keepEntry value entries) (g := m'.keepEntry value' entries)
    fun e he renamed => ?_
  rw [keepEntry, keepEntry, keep_congr (h e.1 (List.mem_map_of_mem he)),
    hvalue e.2 (List.mem_map_of_mem he)]

end Mapping

section
variable {R : Type} {m m' : Mapping}

theorem Record.remap_congr {r : Record R} (hr : ¬(Operation.record r).IsChangeDevice)
    (h : m.AgreeOn m' (Operation.record r).ownQubits) : r.remap m = r.remap m' := by
  obtain ⟨hstrict, h⟩ := Mapping.agreeOn_append.mp h
  obtain ⟨hkeys, hvalues⟩ := Mapping.agreeOn_append.mp h
  cases r with
  | singleQubit | noise | activeReset | measureQubit =>
    rw [remap, remap, Mapping.strict_congr (hstrict _ List.mem_cons_self)]
  | twoQubit g c t =>
    rw [remap, remap, Mapping.strict_congr (hstrict c List.mem_cons_self),
      Mapping.strict_congr (hstrict t (List.mem_cons_of_mem c List.mem_cons_self))]
  | overrotation _ qs | stopParallelBlock qs | sleep qs | stopDecompositionBlock qs =>
    have hqs : m.AgreeOn m' qs := hstrict
    rw [remap, remap, Mapping.strictList_congr hqs]
  | startDecompositionBlock qs reordering =>
    have hqs : m.AgreeOn m' qs := hstrict
    have hkeep : ∀ p ∈ reordering.entries.map Prod.snd, m.keep p = m'.keep p :=
      fun p hp => Mapping.keep_congr (hvalues p hp)
    rw [remap, remap, Mapping.strictList_congr hqs, Mapping.keepEntries_congr hkeys hkeep]
  | changeDevice => exact absurd trivial hr
  | repeatedMeasurement readout number indices =>
    cases indices with
    | none => rfl
    | some indices => rw [remap, remap, Mapping.keepEntries_congr hkeys fun _ _ => rfl]
  | _ => rfl

theorem Block.remap_congr {b : Block R} (h : m.AgreeOn m' b.strictQubits) :
    b.remap m = b.remap m' := by
  cases b with
  | controlled q => rw [remap, remap, Mapping.strict_congr (h q List.mem_cons_self)]
  | pauliProduct paulis readout => rw [remap, remap, Mapping.strictEntries_congr h]
  | _ => rfl

mutual

/-- Mappings that agree on the qubits of all operations inside rename alike. -/
theorem Operation.remap_congr : ∀ {op : Operation R}, (∀ n ∈ op.nested, ¬n.IsChangeDevice) →
    (∀ n ∈ op.nested, m.AgreeOn m' n.ownQubits) → op.remap m = op.remap m'
  | .record r, hdevice, h => by
    have hself : Operation.record r ∈ (Operation.record r).nested := List.mem_singleton_self _
    rw [Operation.remap, Operation.remap, Record.remap_congr (hdevice _ hself) (h _ hself)]
  | .block b body, hdevice, h => by
    rw [Operation.nested, List.forall_mem_cons] at hdevice h
    rw [Operation.remap, Operation.remap, Block.remap_congr h.1,
      Circuit.remap_congr hdevice.2 h.2]
  | .annotated op note, hdevice, h => by
    rw [Operation.nested, List.forall_mem_cons] at hdevice h
    rw [Operation.remap, Operation.remap, Operation.remap_congr hdevice.2 h.2]

theorem Circuit.remap_congr : ∀ {c : List (Operation R)},
    (∀ n ∈ Circuit.nested c, ¬n.IsChangeDevice) →
    (∀ n ∈ Circuit.nested c, m.AgreeOn m' n.ownQubits) → Circuit.remap m c = Circuit.remap m' c
  | [], _, _ => rfl
  | op :: rest, hdevice, h => by
    rw [Circuit.nested, List.forall_mem_append] at hdevice h
    rw [Circuit.remap, Circuit.remap, Operation.remap_congr hdevice.1 h.1,
      Circuit.remap_congr hdevice.2 h.2]

end

end

/-! Values are carried along. -/

namespace Dict

variable {V W : Type} {g : V → W} {d : Dict Nat V} {q : Nat}

theorem get?_mapValues : (d.mapValues g).get? q = (d.get? q).map g := by
  rw [get?, get?, mapValues]
  dsimp only
  induction d.entries with
  | nil => rfl
  | cons e l ih =>
    rw [List.map_cons, lookup_entry, lookup_entry, ih]
    split <;> rfl

theorem isSome_get?_mapValues : ((d.mapValues g).get? q).isSome = (d.get? q).isSome := by
  rw [get?_mapValues, Option.isSome_map]

theorem mapValues_insert {v : V} : (d.insert q v).mapValues g = (d.mapValues g).insert q (g v) := by
  refine ext_get? fun p => ?_
  rw [get?_mapValues, get?_insert, get?_insert, get?_mapValues]
  split <;> rfl

end Dict

namespace Mapping

variable {V W : Type} {g : V → W} {d : Dict Nat V} {m : Mapping}

/-- Which entries come to one key does not depend on their values. -/
theorem keepEntries_mapValues {entries : String} :
    m.keepEntries (fun w => w) entries (d.mapValues g) =
      Dict.mapValues g <$> m.keepEntries (fun v => v) entries d := by
  refine foldlM_map_eq (f := m.keepEntry (fun v => v) entries)
    (g := m.keepEntry (fun w => w) entries) (k := fun e => (e.1, g e.2)) (l := Dict.mapValues g)
    (b := Dict.empty) fun renamed e => ?_
  simp only [keepEntry, Dict.isSome_get?_mapValues]
  split
  · rfl
  · rw [← Dict.mapValues_insert]
    rfl

theorem strictEntries_mapValues :
    m.strictEntries (d.mapValues g) = Dict.mapValues g <$> m.strictEntries d := by
  refine foldlM_map_eq (f := m.strictEntry) (g := m.strictEntry) (k := fun e => (e.1, g e.2))
    (l := Dict.mapValues g) (b := Dict.empty) fun renamed e => ?_
  simp only [strictEntry, map_bind]
  refine bind_congr fun key => ?_
  rw [Dict.isSome_get?_mapValues]
  split
  · rfl
  · rw [← Dict.mapValues_insert]
    rfl

end Mapping

section
variable {R : Type} {m : Mapping}

theorem Record.remap_withoutCodes (r : Record R) :
    r.withoutCodes.remap m = withoutCodes <$> r.remap m := by
  cases r with
  | twoQubit g c t =>
    simp only [withoutCodes, remap, map_bind]
    refine bind_congr fun c' => bind_congr fun t' => ?_
    split <;> rfl
  | changeDevice tags name encoded =>
    simp only [withoutCodes, remap]
    cases m.firstMoved? <;> rfl
  | repeatedMeasurement readout number indices =>
    cases indices with
    | none => rfl
    | some indices =>
      simp [withoutCodes, remap, Mapping.keepEntries_mapValues]
  | _ => simp [withoutCodes, remap]

theorem Block.remap_withoutCodes (b : Block R) :
    b.withoutCodes.remap m = withoutCodes <$> b.remap m := by
  cases b with
  | pauliProduct paulis readout => simp [withoutCodes, remap, Mapping.strictEntries_mapValues]
  | _ => simp [withoutCodes, remap]

mutual

/-- It is the same to leave out the numbers that are no qubits before remapping or after. -/
theorem Operation.remap_withoutCodes : ∀ op : Operation R,
    op.withoutCodes.remap m = Operation.withoutCodes <$> op.remap m
  | .record r => by simp [Operation.withoutCodes, Operation.remap, r.remap_withoutCodes]
  | .block b body => by
    simp [Operation.withoutCodes, Operation.remap, b.remap_withoutCodes,
      Circuit.remap_withoutCodes body]
  | .annotated op note => by simp [Operation.withoutCodes, Operation.remap, op.remap_withoutCodes]

theorem Circuit.remap_withoutCodes : ∀ c : List (Operation R),
    Circuit.remap m (Circuit.withoutCodes c) = Circuit.withoutCodes <$> Circuit.remap m c
  | [] => rfl
  | op :: rest => by
    simp [Circuit.withoutCodes, Circuit.remap, op.remap_withoutCodes,
      Circuit.remap_withoutCodes rest]

end

/-- Mappings with the same entries for the qubits that occur in an operation give the same operation
or the same error, unless there is an instruction to a device. Operations with the same qubits in
the same places fail with the same error, or become operations with the same qubits, whatever their
other numbers are. -/
theorem Operation.remap_local (op : Operation R) :
    (∀ m m' : Mapping, (∀ n ∈ op.nested, ¬n.IsChangeDevice) →
      (∀ q ∈ op.qubits, m.get? q = m'.get? q) → op.remap m = op.remap m') ∧
    ∀ (m : Mapping) (op' : Operation R), op'.withoutCodes = op.withoutCodes →
      Operation.withoutCodes <$> op'.remap m = Operation.withoutCodes <$> op.remap m := by
  refine ⟨fun m m' hdevice h => ?_, fun m op' h => ?_⟩
  · exact remap_congr hdevice fun n hn q hq => h q (List.mem_flatMap.mpr ⟨n, hn, hq⟩)
  · rw [← op'.remap_withoutCodes, ← op.remap_withoutCodes, h]

end

/-- A reordering the keys of which come to one, around which nothing is said of qubit 9. -/
theorem Operation.remap_local_collision :
    let m : Mapping := Dict.ofList [(0, 4), (2, 4)]
    let m' : Mapping := Dict.ofList [(0, 4), (2, 4), (9, 0)]
    let op (index : Nat) : Operation Float :=
      .block (.controlled 0) [.record (.measureQubit 2 "ro" index),
        .record (.startDecompositionBlock [0] (Dict.ofList [(0, 2), (2, 0)]))]
    ((∀ n ∈ (op 0).nested, ¬n.IsChangeDevice) ∧ ∀ q ∈ (op 0).qubits, m.get? q = m'.get? q) ∧
    (op 0).remap m = (op 0).remap m' ∧ (op 7).withoutCodes = (op 0).withoutCodes ∧
    Operation.withoutCodes <$> (op 7).remap m = Operation.withoutCodes <$> (op 0).remap m ∧
    (op 7).remap m' = .error (.collision "reordering_dictionary" 4) := by
  intro m m' op
  have hdevice : ∀ n ∈ (op 0).nested, ¬n.IsChangeDevice := by
    simp [op, Operation.nested, Circuit.nested, Operation.IsChangeDevice]
  have hagree : ∀ q ∈ (op 0).qubits, m.get? q = m'.get? q := by decide
  have hcodes : (op 7).withoutCodes = (op 0).withoutCodes := rfl
  obtain ⟨hmapping, hnumbers⟩ := (op 0).remap_local
  exact ⟨⟨hdevice, hagree⟩, hmapping m m' hdevice hagree, hcodes, hnumbers m (op 7) hcodes, rfl⟩

end QuantumOps
