import QuantumOps.Qubit.Mapping
import QuantumOps.Proofs.Agreement
import QuantumOps.Proofs.Dict

/-! Looking up qubits in a mapping, one by one, in lists and as keys: when it succeeds, and that it
gives the same then as keeping the qubits without an entry. Mappings one after another and inverse
mappings, as functions on all qubits. -/
namespace QuantumOps.Mapping

variable {m : Mapping} {q p : Nat}

theorem keep_of_get? (h : m.get? q = some p) : m.keep q = p := by
  rw [keep, h, Option.getD_some]

theorem keep_of_not_mem (h : q ∉ m.keys) : m.keep q = q := by
  rw [keep, Dict.get?_eq_none.mpr h, Option.getD_none]

theorem get?_of_mem (h : q ∈ m.keys) : m.get? q = some (m.keep q) := by
  obtain ⟨p, hp⟩ := Dict.mem_keys.mp h
  rw [hp, keep_of_get? hp]

theorem strict_eq_ok : m.strict q = .ok p ↔ q ∈ m.keys ∧ p = m.keep q := by
  rw [strict, keep, Dict.mem_keys]
  cases m.get? q with
  | some p' => simp [eq_comm]
  | none => simp

theorem strictList_eq_ok {qs ps : List Nat} :
    m.strictList qs = .ok ps ↔ (∀ q ∈ qs, q ∈ m.keys) ∧ ps = qs.map m.keep := by
  rw [strictList]
  induction qs generalizing ps with
  | nil =>
    rw [List.mapM_nil]
    exact ⟨fun h => ⟨nofun, (Except.ok.inj h).symm⟩, fun h => h.2 ▸ rfl⟩
  | cons q qs ih =>
    rw [List.mapM_cons, List.forall_mem_cons, List.map_cons]
    exact bind_bind_pure_eq_ok strict_eq_ok ih

theorem firstMoved?_eq_none : m.firstMoved? = none ↔ ∀ e ∈ m.entries, e.1 = e.2 := by
  simp [firstMoved?]

section
variable {V : Type}

/-- Adds an entry under the new key, which may not be there yet. -/
def keepEntry (m : Mapping) (value : V → V) (entries : String) (renamed : Dict Nat V)
    (e : Nat × V) : Except RemapError (Dict Nat V) :=
  let key := m.keep e.1
  if (renamed.get? key).isSome then .error (.collision entries key)
  else .ok (renamed.insert key (value e.2))

/-- Adds an entry under the new key, unless there is one. -/
def strictEntry (m : Mapping) (renamed : Dict Nat V) (e : Nat × V) :
    Except RemapError (Dict Nat V) := do
  let key ← m.strict e.1
  return if (renamed.get? key).isSome then renamed else renamed.insert key e.2

variable {value : V → V} {entries : String} {d d' : Dict Nat V}

theorem keepEntry_eq_ok {e : Nat × V} : m.keepEntry value entries d e = .ok d' ↔
    m.keep e.1 ∉ d.keys ∧ d' = d.addNew (m.keep e.1) (value e.2) := by
  rw [← Dict.get?_eq_none, keepEntry, Dict.addNew]
  cases d.get? (m.keep e.1) with
  | some v => simp
  | none => simp [eq_comm]

theorem strictEntry_eq_ok {e : Nat × V} : m.strictEntry d e = .ok d' ↔
    e.1 ∈ m.keys ∧ d' = d.addNew (m.keep e.1) e.2 :=
  bind_pure_eq_ok strict_eq_ok

/-- The entries of a list are added just when all come to new keys, each to another. -/
theorem foldlM_keepEntry_eq_ok {l : List (Nat × V)} :
    l.foldlM (m.keepEntry value entries) d = .ok d' ↔
      ((l.map fun e => m.keep e.1).Nodup ∧ ∀ e ∈ l, m.keep e.1 ∉ d.keys) ∧
      d' = Dict.addRenamed m.keep value d l := by
  -- A key that is new for the map with the first entry is new for the map and is not that entry's.
  induction l generalizing d with
  | nil =>
    constructor
    · rintro ⟨⟩
      exact ⟨⟨List.nodup_nil, nofun⟩, rfl⟩
    · rintro ⟨-, rfl⟩
      rfl
  | cons e l ih =>
    rw [List.foldlM_cons, bind_eq_ok, List.map_cons, List.nodup_cons, List.forall_mem_cons]
    constructor
    · rintro ⟨d₁, h₁, h⟩
      obtain ⟨hkey, rfl⟩ := keepEntry_eq_ok.mp h₁
      obtain ⟨⟨hnodup, hfresh⟩, rfl⟩ := ih.mp h
      simp only [Dict.mem_keys_addNew, not_or] at hfresh
      refine ⟨⟨⟨?_, hnodup⟩, hkey, fun e' he' => (hfresh e' he').2⟩, rfl⟩
      intro hmem
      obtain ⟨e', he', heq⟩ := List.mem_map.mp hmem
      exact (hfresh e' he').1 heq
    · rintro ⟨⟨⟨hnot, hnodup⟩, hkey, hfresh⟩, rfl⟩
      refine ⟨_, keepEntry_eq_ok.mpr ⟨hkey, rfl⟩, ih.mpr ⟨⟨hnodup, fun e' he' => ?_⟩, rfl⟩⟩
      rw [Dict.mem_keys_addNew, not_or]
      exact ⟨fun heq => hnot (heq ▸ List.mem_map_of_mem he'), hfresh e' he'⟩

theorem foldlM_strictEntry_eq_ok {l : List (Nat × V)} :
    l.foldlM m.strictEntry d = .ok d' ↔
      (∀ e ∈ l, e.1 ∈ m.keys) ∧ d' = Dict.addRenamed m.keep id d l := by
  induction l generalizing d with
  | nil =>
    constructor
    · rintro ⟨⟩
      exact ⟨nofun, rfl⟩
    · rintro ⟨-, rfl⟩
      rfl
  | cons e l ih =>
    rw [List.foldlM_cons, bind_eq_ok, List.forall_mem_cons]
    constructor
    · rintro ⟨d₁, h₁, h⟩
      obtain ⟨hkey, rfl⟩ := strictEntry_eq_ok.mp h₁
      obtain ⟨hkeys, rfl⟩ := ih.mp h
      exact ⟨⟨hkey, hkeys⟩, rfl⟩
    · rintro ⟨⟨hkey, hkeys⟩, rfl⟩
      exact ⟨_, strictEntry_eq_ok.mpr ⟨hkey, rfl⟩, ih.mpr ⟨hkeys, rfl⟩⟩

/-- A dictionary is renamed as far as the mapping goes just when no two of its keys come to one. -/
theorem keepEntries_eq_ok : m.keepEntries value entries d = .ok d' ↔
    Set.InjOn m.keep {q | q ∈ d.keys} ∧ d' = d.rename m.keep value := by
  have hnodup : (d.entries.map fun e => m.keep e.1).Nodup ↔ Set.InjOn m.keep {q | q ∈ d.keys} := by
    have hmap : (d.entries.map fun e => m.keep e.1) = d.keys.map m.keep :=
      (List.map_map (f := Prod.fst) (g := m.keep)).symm
    rw [hmap, List.nodup_map_iff_inj_on d.nodup_keys]
    exact ⟨fun h p hp q hq => h p hp q hq, fun h p hp q hq => h hp hq⟩
  have hempty : ∀ e ∈ d.entries, m.keep e.1 ∉ (Dict.empty : Dict Nat V).keys := by
    intro e _ h
    cases h
  rw [← hnodup]
  exact foldlM_keepEntry_eq_ok.trans (by simp only [and_iff_left hempty, Dict.rename])

theorem strictEntries_eq_ok : m.strictEntries d = .ok d' ↔
    (∀ q ∈ d.keys, q ∈ m.keys) ∧ d' = d.rename m.keep id := by
  have hkeys : (∀ q ∈ d.keys, q ∈ m.keys) ↔ ∀ e ∈ d.entries, e.1 ∈ m.keys := List.forall_mem_map
  rw [hkeys]
  exact foldlM_strictEntry_eq_ok

end

/-- No two qubits become one. -/
def IsInjective (m : Mapping) : Prop := ∀ p q r, m.get? p = some r → m.get? q = some r → p = q

theorem IsInjective.injOn_keep (h : m.IsInjective) : Set.InjOn m.keep {q | q ∈ m.keys} := by
  intro p hp q hq heq
  exact h p q (m.keep p) (get?_of_mem hp) (heq ▸ get?_of_mem hq)

theorem isInjective_iff_nodup : m.IsInjective ↔ (m.entries.map Prod.snd).Nodup := by
  have hentries : m.entries.Nodup := m.nodup_keys.of_map _
  rw [List.nodup_map_iff_inj_on hentries]
  constructor
  · rintro h ⟨p, r⟩ hp ⟨q, r'⟩ hq rfl
    rw [h p q r (Dict.get?_eq_some.mpr hp) (Dict.get?_eq_some.mpr hq)]
  · intro h p q r hp hq
    have heq := h (p, r) (Dict.get?_eq_some.mp hp) (q, r) (Dict.get?_eq_some.mp hq) rfl
    exact congrArg Prod.fst heq

instance : Decidable m.IsInjective := decidable_of_iff _ isInjective_iff_nodup.symm

/-- Every entry maps a qubit to itself. -/
def IsIdentity (m : Mapping) : Prop := ∀ e ∈ m.entries, e.1 = e.2

instance : Decidable m.IsIdentity := inferInstanceAs (Decidable (∀ e ∈ m.entries, e.1 = e.2))

theorem IsIdentity.keep_eq_id (h : m.IsIdentity) : m.keep = id := by
  funext q
  by_cases hq : q ∈ m.keys
  · exact (h _ (Dict.get?_eq_some.mp (get?_of_mem hq))).symm
  · exact keep_of_not_mem hq

/-- The first mapping as far as it goes, and then the second as far as that goes, on the qubits for
which either has an entry. -/
def andThen (m n : Mapping) : Mapping :=
  Dict.ofList ((m.keys ++ n.keys).map fun q => (q, n.keep (m.keep q)))

section
variable {n : Mapping}

theorem get?_andThen : (m.andThen n).get? q =
    if q ∈ m.keys ∨ q ∈ n.keys then some (n.keep (m.keep q)) else none := by
  rw [andThen, Dict.get?_ofList, ← List.map_reverse, Dict.lookup_graph]
  simp only [List.mem_reverse, List.mem_append]

theorem mem_keys_andThen : q ∈ (m.andThen n).keys ↔ q ∈ m.keys ∨ q ∈ n.keys := by
  rw [Dict.mem_keys, get?_andThen]
  split <;> simp [*]

theorem keep_andThen : (m.andThen n).keep = n.keep ∘ m.keep := by
  funext q
  by_cases hq : q ∈ m.keys ∨ q ∈ n.keys
  · exact keep_of_get? (by rw [get?_andThen, if_pos hq, Function.comp_apply])
  · obtain ⟨hm, hn⟩ := not_or.mp hq
    rw [keep_of_not_mem (mem_keys_andThen.not.mpr hq), Function.comp_apply, keep_of_not_mem hm,
      keep_of_not_mem hn]

theorem IsIdentity.andThen (hm : m.IsIdentity) (hn : n.IsIdentity) : (m.andThen n).IsIdentity := by
  rintro ⟨q, p⟩ he
  have hget := Dict.get?_eq_some.mpr he
  have hkeep := keep_of_get? hget
  rw [keep_andThen, hm.keep_eq_id, hn.keep_eq_id] at hkeep
  exact hkeep

end

/-- The qubits with an entry are the new qubits again, each once. -/
structure IsPermutation (m : Mapping) : Prop where
  injective : m.IsInjective
  onto : ∀ q, q ∈ m.keys ↔ ∃ p, m.get? p = some q

theorem isPermutation_iff : m.IsPermutation ↔
    m.IsInjective ∧ m.keys ⊆ m.entries.map Prod.snd ∧ m.entries.map Prod.snd ⊆ m.keys := by
  have hvalues : ∀ q, q ∈ m.entries.map Prod.snd ↔ ∃ p, m.get? p = some q := by
    simp [Dict.get?_eq_some]
  constructor
  · intro h
    exact ⟨h.injective, fun q hq => (hvalues q).mpr ((h.onto q).mp hq),
      fun q hq => (h.onto q).mpr ((hvalues q).mp hq)⟩
  · rintro ⟨hinj, hkeys, hback⟩
    exact ⟨hinj, fun q =>
      ⟨fun hq => (hvalues q).mp (hkeys hq), fun hq => hback ((hvalues q).mpr hq)⟩⟩

instance : Decidable m.IsPermutation := decidable_of_iff _ isPermutation_iff.symm

/-- Old qubits for new ones. -/
def inverse (m : Mapping) : Mapping := Dict.ofList (m.entries.map Prod.swap)

theorem IsInjective.get?_inverse (h : m.IsInjective) :
    m.inverse.get? p = some q ↔ m.get? q = some p := by
  rw [inverse, Dict.get?_ofList, Dict.lookup_eq_some]
  · simp [Dict.get?_eq_some]
  · simp only [List.mem_reverse, List.mem_map]
    rintro _ ⟨a, ha, rfl⟩ _ ⟨b, hb, rfl⟩ heq
    refine h a.1 b.1 a.2 (Dict.get?_eq_some.mpr ha) (Dict.get?_eq_some.mpr ?_)
    rw [show a.2 = b.2 from heq]
    exact hb

theorem IsIdentity.inverse (h : m.IsIdentity) : m.inverse.IsIdentity := by
  rintro ⟨p, q⟩ he
  have hlookup := Dict.get?_ofList.symm.trans (Dict.get?_eq_some.mpr he)
  obtain ⟨a, ha, heq⟩ := List.mem_map.mp (List.mem_reverse.mp (Dict.mem_of_lookup hlookup))
  cases heq
  exact (h a ha).symm

theorem IsPermutation.keep_inverse (h : m.IsPermutation) : m.inverse.keep ∘ m.keep = id := by
  funext q
  by_cases hq : q ∈ m.keys
  · exact keep_of_get? (h.injective.get?_inverse.mpr (get?_of_mem hq))
  · have hnot : q ∉ m.inverse.keys := by
      rw [Dict.mem_keys]
      rintro ⟨p, hp⟩
      exact hq ((h.onto q).mpr ⟨p, h.injective.get?_inverse.mp hp⟩)
    rw [Function.comp_apply, keep_of_not_mem hq, keep_of_not_mem hnot, id]

end QuantumOps.Mapping
