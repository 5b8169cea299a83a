import Mathlib.Data.Finset.Card
import QuantumOps.Numeric.Float
import QuantumOps.Proofs.Operation.Refusal

/-! What remapping does to the dictionaries that have qubits as keys. A renaming of the keys keeps
all entries just when no two keys become one. Decomposition blocks and repeated measurements are
refused where it would lose an entry; measured products lose it. -/
namespace QuantumOps

namespace Dict

variable {V W : Type} {f : Nat → Nat} {value : V → W} {d : Dict Nat V}

/-- The entries of a map under new keys and with new values, none of them lost and none added. -/
structure MovedTo (f : Nat → Nat) (value : V → W) (d : Dict Nat V) (d' : Dict Nat W) : Prop where
  size : d'.entries.length = d.entries.length
  get? : ∀ q v, d.get? q = some v → d'.get? (f q) = some (value v)

theorem length_rename_eq_iff : (d.rename f value).entries.length = d.entries.length ↔
    Set.InjOn f {q | q ∈ d.keys} := by
  have hlength : ∀ {U : Type} (e : Dict Nat U), e.entries.length = e.keys.toFinset.card := by
    intro U e
    rw [List.toFinset_card_of_nodup e.nodup_keys, keys, List.length_map]
  have himage : (d.rename f value).keys.toFinset = d.keys.toFinset.image f := by
    ext p
    simp only [List.mem_toFinset, Finset.mem_image, mem_keys_rename]
  rw [hlength, hlength, himage, Finset.card_image_iff, List.coe_toFinset]

theorem movedTo_rename_iff :
    d.MovedTo f value (d.rename f value) ↔ Set.InjOn f {q | q ∈ d.keys} := by
  refine ⟨fun h => length_rename_eq_iff.mp h.size, fun h => ⟨length_rename_eq_iff.mpr h, ?_⟩⟩
  intro q v hq
  exact (get?_rename_eq_some h).mpr ⟨q, v, hq, rfl, rfl⟩

/-- Of the entries that come to a key, that with the least old key has the value. -/
structure LeastAt (f : Nat → Nat) (d : Dict Nat V) (p q : Nat) (v : V) : Prop where
  get? : d.get? q = some v
  key : f q = p
  least : ∀ q' ∈ d.keys, f q' = p → q ≤ q'

theorem get?_rename_iff_leastAt {p : Nat} {w : W} :
    (d.rename f value).get? p = some w ↔ ∃ q v, d.LeastAt f p q v ∧ value v = w := by
  have hleast : ∀ {w}, (d.rename f value).get? p = some w →
      ∃ q v, d.LeastAt f p q v ∧ value v = w := by
    intro w h
    rw [get?_rename, List.lookup_eq_some_iff] at h
    obtain ⟨before', after', hsplit, hbefore⟩ := h
    obtain ⟨before, rest, hentries, rfl, hrest⟩ := List.map_eq_append_iff.mp hsplit
    obtain ⟨⟨q, v⟩, after, rfl, hentry, -⟩ := List.map_eq_cons_iff.mp hrest
    cases hentry
    refine ⟨q, v, ⟨get?_eq_some.mpr (by simp [hentries]), rfl, fun q' hq' heq => ?_⟩, rfl⟩
    -- The key is not before the first that comes to `p`, and the entries are sorted.
    have hsorted := d.sorted
    rw [hentries, List.pairwise_append, List.pairwise_cons] at hsorted
    obtain ⟨e, he, rfl⟩ := List.mem_map.mp hq'
    rw [hentries, List.mem_append, List.mem_cons] at he
    rcases he with he | rfl | he
    · simpa [heq] using hbefore _ (List.mem_map_of_mem he)
    · exact Nat.le_refl _
    · exact Nat.le_of_lt (hsorted.2.1.1 e he)
  refine ⟨hleast, ?_⟩
  rintro ⟨q, v, h, rfl⟩
  have hkey : p ∈ (d.rename f value).keys :=
    mem_keys_rename.mpr ⟨q, mem_keys.mpr ⟨v, h.get?⟩, h.key⟩
  obtain ⟨w, hw⟩ := mem_keys.mp hkey
  obtain ⟨q', v', h', rfl⟩ := hleast hw
  have hq : q' = q := Nat.le_antisymm (h'.least q (mem_keys.mpr ⟨v, h.get?⟩) h.key)
    (h.least q' (mem_keys.mpr ⟨v', h'.get?⟩) h'.key)
  have hv : v' = v := Option.some.inj (h'.get?.symm.trans (hq ▸ h.get?))
  rw [hw, hv]

end Dict

namespace Mapping

variable {m : Mapping} {V : Type} {d d' : Dict Nat V} {value : V → V} {entries : String}

/-- Two keys of the dictionary become the qubit. -/
def Merges (m : Mapping) (d : Dict Nat V) (r : Nat) : Prop :=
  ∃ p ∈ d.keys, ∃ q ∈ d.keys, p ≠ q ∧ m.keep p = r ∧ m.keep q = r

theorem injOn_keep_iff : Set.InjOn m.keep {q | q ∈ d.keys} ↔ ¬ ∃ r, m.Merges d r := by
  constructor
  · rintro h ⟨r, p, hp, q, hq, hne, hpr, hqr⟩
    exact hne (h hp hq (hpr.trans hqr.symm))
  · intro h p hp q hq heq
    by_contra hne
    exact h ⟨m.keep q, p, hp, q, hq, hne, heq, rfl⟩

theorem movedTo_of_keepEntries (h : m.keepEntries value entries d = .ok d') :
    d.MovedTo m.keep value d' := by
  obtain ⟨hinj, rfl⟩ := keepEntries_eq_ok.mp h
  exact Dict.movedTo_rename_iff.mpr hinj

/-- Entries that collide are refused, and a qubit is named to which two of them come. -/
theorem exists_keepEntries_eq_error (value : V → V) (entries : String) {r : Nat}
    (h : m.Merges d r) :
    ∃ r', m.Merges d r' ∧ m.keepEntries value entries d = .error (.collision entries r') := by
  cases hrenamed : m.keepEntries value entries d with
  | ok d' => exact absurd ⟨r, h⟩ (injOn_keep_iff.mp (keepEntries_eq_ok.mp hrenamed).1)
  | error e =>
    obtain ⟨p, hp, q, hq, hne, heq, rfl⟩ := keepEntries_eq_error hrenamed
    exact ⟨m.keep q, ⟨p, hp, q, hq, hne, heq, rfl⟩, rfl⟩

end Mapping

variable {R : Type} {m : Mapping} {d : Dict Nat Nat} {op' : Operation R}

namespace Operation

theorem movedTo_of_remap_startDecompositionBlock {qs : List Nat}
    (h : (record (.startDecompositionBlock qs d)).remap m = .ok op') :
    ∃ d', op' = record (.startDecompositionBlock (qs.map m.keep) d') ∧
      d.MovedTo m.keep m.keep d' := by
  obtain ⟨r', hr', hop⟩ := bind_eq_ok.mp h
  obtain ⟨d', hd', hr'⟩ := bind_eq_ok.mp hr'
  obtain ⟨ps, hps, hr'⟩ := bind_eq_ok.mp hr'
  obtain ⟨-, rfl⟩ := Mapping.strictList_eq_ok.mp hps
  cases hr'
  cases hop
  exact ⟨d', rfl, Mapping.movedTo_of_keepEntries hd'⟩

theorem movedTo_of_remap_repeatedMeasurement {readout : String} {number : Nat}
    (h : (record (.repeatedMeasurement readout number (some d))).remap m = .ok op') :
    ∃ d', op' = record (.repeatedMeasurement readout number (some d')) ∧
      d.MovedTo m.keep id d' := by
  obtain ⟨r', hr', hop⟩ := bind_eq_ok.mp h
  obtain ⟨d', hd', hr'⟩ := bind_eq_ok.mp hr'
  cases hr'
  cases hop
  exact ⟨d', rfl, Mapping.movedTo_of_keepEntries hd'⟩

theorem remap_startDecompositionBlock_of_merges {r : Nat} (qs : List Nat) (h : m.Merges d r) :
    ∃ r', m.Merges d r' ∧
      (record (.startDecompositionBlock qs d) : Operation R).remap m =
        .error (.collision "reordering_dictionary" r') := by
  obtain ⟨r', hr', herror⟩ :=
    Mapping.exists_keepEntries_eq_error m.keep "reordering_dictionary" h
  refine ⟨r', hr', ?_⟩
  rw [Operation.remap, Record.remap, herror]
  rfl

theorem remap_repeatedMeasurement_of_merges {r : Nat} (readout : String) (number : Nat)
    (h : m.Merges d r) :
    ∃ r', m.Merges d r' ∧
      (record (.repeatedMeasurement readout number (some d)) : Operation R).remap m =
        .error (.collision "qubit_mapping" r') := by
  obtain ⟨r', hr', herror⟩ :=
    Mapping.exists_keepEntries_eq_error (fun index => index) "qubit_mapping" h
  refine ⟨r', hr', ?_⟩
  rw [Operation.remap, Record.remap, herror]
  rfl

theorem remap_pauliProduct_eq_ok {readout : String} {body : Circuit R} :
    (block (.pauliProduct d readout) body).remap m = .ok op' ↔
      ((∀ q ∈ d.keys, q ∈ m.keys) ∧
        ∃ body', Circuit.remap m body = .ok body' ∧
          op' = block (.pauliProduct (d.rename m.keep id) readout) body') := by
  rw [Operation.remap, bind_eq_ok]
  constructor
  · rintro ⟨b', hb', h⟩
    obtain ⟨d', hd', hb'⟩ := bind_eq_ok.mp hb'
    obtain ⟨hkeys, rfl⟩ := Mapping.strictEntries_eq_ok.mp hd'
    obtain ⟨body', hbody, h⟩ := bind_eq_ok.mp h
    cases hb'
    cases h
    exact ⟨hkeys, body', hbody, rfl⟩
  · rintro ⟨hkeys, body', hbody, rfl⟩
    refine ⟨_, bind_eq_ok.mpr ⟨_, Mapping.strictEntries_eq_ok.mpr ⟨hkeys, rfl⟩, rfl⟩, ?_⟩
    rw [hbody]
    rfl

end Operation

/-- Remapping a decomposition block or a repeated measurement moves every entry of its dictionary,
and is refused when two keys become one. A measured product is remapped whenever the mapping knows
its qubits and its circuit can be remapped. Its entries are all moved just when no two keys become
one; of those that do, only that with the least key is left. -/
theorem Operation.remap_dictionaries (m : Mapping) (d : Dict Nat Nat) :
    ((∀ qs (op' : Operation R), (record (.startDecompositionBlock qs d)).remap m = .ok op' →
        ∃ d', op' = record (.startDecompositionBlock (qs.map m.keep) d') ∧
          d.MovedTo m.keep m.keep d') ∧
      ∀ readout number (op' : Operation R),
        (record (.repeatedMeasurement readout number (some d))).remap m = .ok op' →
        ∃ d', op' = record (.repeatedMeasurement readout number (some d')) ∧
          d.MovedTo m.keep id d') ∧
    (∀ r, m.Merges d r →
      (∀ qs, ∃ r', m.Merges d r' ∧
        (record (.startDecompositionBlock qs d) : Operation R).remap m =
          .error (.collision "reordering_dictionary" r')) ∧
      ∀ readout number, ∃ r', m.Merges d r' ∧
        (record (.repeatedMeasurement readout number (some d)) : Operation R).remap m =
          .error (.collision "qubit_mapping" r')) ∧
    ∀ readout (body : Circuit R),
      ((∃ op', (block (.pauliProduct d readout) body).remap m = .ok op') ↔
        (∀ q ∈ d.keys, q ∈ m.keys) ∧ ∃ body', Circuit.remap m body = .ok body') ∧
      ∀ op', (block (.pauliProduct d readout) body).remap m = .ok op' →
        ∃ d' body', op' = block (.pauliProduct d' readout) body' ∧
          (d.MovedTo m.keep id d' ↔ ¬ ∃ r, m.Merges d r) ∧
          ∀ p v, d'.get? p = some v ↔ ∃ q, d.LeastAt m.keep p q v := by
  refine ⟨⟨?_, ?_⟩, fun r hr => ⟨?_, ?_⟩, fun readout body => ⟨?_, ?_⟩⟩
  · intro qs op'
    exact movedTo_of_remap_startDecompositionBlock
  · intro readout number op'
    exact movedTo_of_remap_repeatedMeasurement
  · intro qs
    exact remap_startDecompositionBlock_of_merges qs hr
  · intro readout number
    exact remap_repeatedMeasurement_of_merges readout number hr
  · constructor
    · rintro ⟨op', h⟩
      obtain ⟨hkeys, body', hbody, -⟩ := remap_pauliProduct_eq_ok.mp h
      exact ⟨hkeys, body', hbody⟩
    · rintro ⟨hkeys, body', hbody⟩
      exact ⟨_, remap_pauliProduct_eq_ok.mpr ⟨hkeys, body', hbody, rfl⟩⟩
  · intro op' h
    obtain ⟨-, body', -, rfl⟩ := remap_pauliProduct_eq_ok.mp h
    refine ⟨_, body', rfl, Dict.movedTo_rename_iff.trans Mapping.injOn_keep_iff, fun p v => ?_⟩
    rw [Dict.get?_rename_iff_leastAt]
    simp

/-- A mapping that makes two qubits one moves the entries of a dictionary with one of them, and is
refused for a dictionary with the other and a qubit that is kept. -/
theorem Operation.remap_dictionaries_merged :
    let merge : Mapping := Dict.ofList [(0, 5), (1, 5)]
    let measured (d : Dict Nat Nat) : Operation Float :=
      .record (.repeatedMeasurement "ro" 10 (some d))
    (measured (Dict.ofList [(0, 1), (2, 0)])).remap merge =
      .ok (measured (Dict.ofList [(2, 0), (5, 1)])) ∧
    (Dict.ofList [(0, 1), (2, 0)]).MovedTo merge.keep id (Dict.ofList [(2, 0), (5, 1)]) ∧
    ∃ r, merge.Merges (Dict.ofList [(1, 1), (5, 0)]) r ∧
      (measured (Dict.ofList [(1, 1), (5, 0)])).remap merge =
        .error (.collision "qubit_mapping" r) := by
  intro merge measured
  have hremap : (measured (Dict.ofList [(0, 1), (2, 0)])).remap merge =
      .ok (measured (Dict.ofList [(2, 0), (5, 1)])) := rfl
  have hmerges : merge.Merges (Dict.ofList [(1, 1), (5, 0)]) 5 :=
    ⟨1, by decide, 5, by decide, by decide, rfl, rfl⟩
  obtain ⟨⟨-, hmoved⟩, -⟩ := remap_dictionaries (R := Float) merge (Dict.ofList [(0, 1), (2, 0)])
  obtain ⟨-, hrefused, -⟩ := remap_dictionaries (R := Float) merge (Dict.ofList [(1, 1), (5, 0)])
  obtain ⟨d', heq, hd'⟩ := hmoved _ _ _ hremap
  cases heq
  exact ⟨hremap, hd', (hrefused 5 hmerges).2 "ro" 10⟩

/-- A measured product whose two qubits become one has only one of its two entries left. -/
theorem Operation.remap_pauliProduct_merged :
    let merge : Mapping := Dict.ofList [(0, 5), (1, 5)]
    let product (d : Dict Nat Nat) : Operation Float := .block (.pauliProduct d "ro") []
    merge.Merges (Dict.ofList [(0, 1), (1, 3)]) 5 ∧
    (product (Dict.ofList [(0, 1), (1, 3)])).remap merge = .ok (product (Dict.ofList [(5, 1)])) ∧
    ¬ (Dict.ofList [(0, 1), (1, 3)]).MovedTo merge.keep id (Dict.ofList [(5, 1)]) := by
  intro merge product
  refine ⟨⟨0, by decide, 1, by decide, by decide, rfl, rfl⟩, rfl, fun h => ?_⟩
  exact absurd h.size (by decide)

end QuantumOps
