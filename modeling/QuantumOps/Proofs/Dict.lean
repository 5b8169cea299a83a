import Mathlib.Data.Set.Function
import Mathlib.Data.List.Nodup
import QuantumOps.Dict

/-! Finite maps are determined by what they give at each key. A map made from a list gives the last
entry of the list at a key, and a map with its keys renamed the first entry that comes to it. -/
namespace QuantumOps.Dict

section
variable {K V : Type} [DecidableEq K] {l : List (K × V)} {k : K} {v : V}

theorem mem_of_lookup (h : l.lookup k = some v) : (k, v) ∈ l := by
  obtain ⟨before, after, rfl, -⟩ := List.lookup_eq_some_iff.mp h
  exact List.mem_append_right before List.mem_cons_self

/-- A list with one value at each key gives the value of every entry. -/
theorem lookup_eq_some (h : ∀ a ∈ l, ∀ b ∈ l, a.1 = b.1 → a.2 = b.2) :
    l.lookup k = some v ↔ (k, v) ∈ l := by
  refine ⟨mem_of_lookup, fun hmem => ?_⟩
  have hsome : (l.lookup k).isSome := List.lookup_isSome_iff.mpr ⟨(k, v), hmem, beq_self_eq_true k⟩
  obtain ⟨w, hw⟩ := Option.isSome_iff_exists.mp hsome
  have hvw : v = w := h (k, v) hmem (k, w) (mem_of_lookup hw) rfl
  rw [hw, hvw]

theorem lookup_graph {l : List K} {f : K → V} :
    (l.map fun k => (k, f k)).lookup k = if k ∈ l then some (f k) else none := by
  induction l with
  | nil => rfl
  | cons a l ih =>
    rw [List.map_cons, lookup_entry, ih]
    by_cases hk : k = a
    · simp [hk]
    · simp [hk]

end

section
variable {K V : Type} [LT K] [LE K] [Std.LawfulOrderLT K]

theorem nodup_keys (d : Dict K V) : d.keys.Nodup := by
  rw [keys, List.Nodup, List.pairwise_map]
  refine d.sorted.imp ?_
  intro a b hab heq
  rw [heq] at hab
  exact Std.lt_irrefl hab

variable [DecidableEq K]

theorem get?_eq_some {d : Dict K V} {k : K} {v : V} : d.get? k = some v ↔ (k, v) ∈ d.entries :=
  lookup_eq_some fun _ ha _ hb h =>
    congrArg Prod.snd (List.inj_on_of_nodup_map d.nodup_keys ha hb h)

theorem mem_keys {d : Dict K V} {k : K} : k ∈ d.keys ↔ ∃ v, d.get? k = some v := by
  simp only [keys, List.mem_map, get?_eq_some]
  constructor
  · rintro ⟨⟨k', v⟩, h, rfl⟩
    exact ⟨v, h⟩
  · rintro ⟨v, h⟩
    exact ⟨(k, v), h, rfl⟩

theorem get?_eq_none {d : Dict K V} {k : K} : d.get? k = none ↔ k ∉ d.keys := by
  rw [mem_keys, ← Option.isSome_iff_exists, Option.not_isSome_iff_eq_none]

end

section
variable {K V : Type} [LT K] [LE K] [Std.IsLinearOrder K] [Std.LawfulOrderLT K] [DecidableEq K]

/-- Maps that give the same at every key are equal. -/
theorem ext_get? {d e : Dict K V} (h : ∀ k, d.get? k = e.get? k) : d = e := by
  have hperm : d.entries.Perm e.entries := by
    rw [List.perm_ext_iff_of_nodup (d.nodup_keys.of_map _) (e.nodup_keys.of_map _)]
    rintro ⟨k, v⟩
    rw [← get?_eq_some, ← get?_eq_some, h k]
  refine Dict.ext (hperm.eq_of_pairwise ?_ d.sorted e.sorted)
  intro a b _ _ hab hba
  exact absurd (Std.lt_trans hab hba) Std.lt_irrefl

variable [DecidableLT K]

/-- The map with a value at a key that has none yet; what has a value keeps it. -/
def addNew (d : Dict K V) (k : K) (v : V) : Dict K V :=
  if (d.get? k).isSome then d else d.insert k v

theorem get?_addNew {d : Dict K V} {k k' : K} {v : V} :
    (d.addNew k v).get? k' = (d.get? k').or (if k' = k then some v else none) := by
  rw [addNew]
  cases h : d.get? k with
  | some w =>
    rw [if_pos Option.isSome_some]
    split
    · rename_i hk
      rw [hk, h, Option.some_or]
    · rw [Option.or_none]
  | none =>
    rw [if_neg (by simp), get?_insert]
    split
    · rename_i hk
      rw [hk, h, Option.none_or]
    · rw [Option.or_none]

theorem mem_keys_addNew {d : Dict K V} {k k' : K} {v : V} :
    k' ∈ (d.addNew k v).keys ↔ k' = k ∨ k' ∈ d.keys := by
  rw [mem_keys, mem_keys, ← Option.isSome_iff_exists, ← Option.isSome_iff_exists, get?_addNew,
    Option.isSome_or, Bool.or_eq_true, or_comm]
  split <;> simp [*]

theorem get?_foldl_insert {l : List (K × V)} {d : Dict K V} {k : K} :
    (l.foldl (fun d e => d.insert e.1 e.2) d).get? k = (l.reverse.lookup k).or (d.get? k) := by
  induction l generalizing d with
  | nil => rfl
  | cons a l ih =>
    rw [List.foldl_cons, ih, List.reverse_cons, List.lookup_append, get?_insert, lookup_entry]
    cases l.reverse.lookup k with
    | some v => rfl
    | none => split <;> rfl

theorem get?_ofList {l : List (K × V)} {k : K} : (ofList l).get? k = l.reverse.lookup k := by
  rw [ofList, get?_foldl_insert, get?_empty, Option.or_none]

end

section
variable {V W : Type}

/-- Adds entries under new keys and with new values. Of entries that come to one key the first
counts. -/
def addRenamed (f : Nat → Nat) (value : V → W) (d : Dict Nat W) (l : List (Nat × V)) : Dict Nat W :=
  l.foldl (fun d e => d.addNew (f e.1) (value e.2)) d

/-- Renames the keys and changes the values. Of entries that come to one key that with the least old
key stays. -/
def rename (f : Nat → Nat) (value : V → W) (d : Dict Nat V) : Dict Nat W :=
  addRenamed f value empty d.entries

variable {f : Nat → Nat} {value : V → W} {d : Dict Nat V}

theorem get?_addRenamed {d : Dict Nat W} {l : List (Nat × V)} {p : Nat} :
    (addRenamed f value d l).get? p =
      (d.get? p).or ((l.map fun e => (f e.1, value e.2)).lookup p) := by
  induction l generalizing d with
  | nil => exact Option.or_none.symm
  | cons e l ih =>
    rw [addRenamed, List.foldl_cons, ← addRenamed, ih, get?_addNew, List.map_cons, lookup_entry,
      Option.or_assoc]
    split <;> rfl

theorem get?_rename {p : Nat} :
    (d.rename f value).get? p = (d.entries.map fun e => (f e.1, value e.2)).lookup p := by
  rw [rename, get?_addRenamed, get?_empty, Option.none_or]

/-- An entry under a new key comes from an entry under an old one. -/
theorem exists_of_get?_rename {p : Nat} {w : W} (h : (d.rename f value).get? p = some w) :
    ∃ q v, d.get? q = some v ∧ f q = p ∧ value v = w := by
  obtain ⟨⟨q, v⟩, he, heq⟩ := List.mem_map.mp (mem_of_lookup (get?_rename ▸ h))
  cases heq
  exact ⟨q, v, get?_eq_some.mpr he, rfl, rfl⟩

theorem mem_keys_addRenamed {d : Dict Nat W} {l : List (Nat × V)} {p : Nat} :
    p ∈ (addRenamed f value d l).keys ↔ p ∈ d.keys ∨ ∃ e ∈ l, f e.1 = p := by
  induction l generalizing d with
  | nil => simp [addRenamed]
  | cons e l ih =>
    rw [addRenamed, List.foldl_cons, ← addRenamed, ih, mem_keys_addNew, List.exists_mem_cons_iff,
      or_left_comm, or_assoc, eq_comm]

theorem mem_keys_rename {p : Nat} : p ∈ (d.rename f value).keys ↔ ∃ q ∈ d.keys, f q = p := by
  have hempty : p ∉ (empty : Dict Nat W).keys := by
    intro h
    cases h
  rw [rename, mem_keys_addRenamed, or_iff_right hempty]
  simp only [keys, List.mem_map, exists_exists_and_eq_and]

/-- Where no two keys are made equal, every entry is there under its new key. -/
theorem get?_rename_eq_some (h : Set.InjOn f {q | q ∈ d.keys}) {p : Nat} {w : W} :
    (d.rename f value).get? p = some w ↔ ∃ q v, d.get? q = some v ∧ f q = p ∧ value v = w := by
  refine ⟨exists_of_get?_rename, ?_⟩
  rintro ⟨q, v, hq, rfl, rfl⟩
  rw [get?_rename, lookup_eq_some]
  · exact List.mem_map.mpr ⟨(q, v), get?_eq_some.mp hq, rfl⟩
  · intro a' ha' b' hb' heq
    obtain ⟨a, ha, rfl⟩ := List.mem_map.mp ha'
    obtain ⟨b, hb, rfl⟩ := List.mem_map.mp hb'
    have hab : a.1 = b.1 := h (List.mem_map_of_mem ha) (List.mem_map_of_mem hb) heq
    rw [List.inj_on_of_nodup_map d.nodup_keys ha hb hab]

/-- Renaming twice is renaming once, where no two keys are made equal. -/
theorem rename_rename {U : Type} {g : Nat → Nat} {value' : W → U}
    (h : Set.InjOn (g ∘ f) {q | q ∈ d.keys}) :
    (d.rename f value).rename g value' = d.rename (g ∘ f) (value' ∘ value) := by
  have hf : Set.InjOn f {q | q ∈ d.keys} := h.of_comp
  have hg : Set.InjOn g {p | p ∈ (d.rename f value).keys} := by
    intro p hp p' hp' heq
    obtain ⟨q, hq, rfl⟩ := mem_keys_rename.mp hp
    obtain ⟨q', hq', rfl⟩ := mem_keys_rename.mp hp'
    rw [h hq hq' heq]
  refine ext_get? fun r => Option.ext fun u => ?_
  rw [get?_rename_eq_some hg, get?_rename_eq_some h]
  constructor
  · rintro ⟨p, w, hp, rfl, rfl⟩
    obtain ⟨q, v, hq, rfl, rfl⟩ := exists_of_get?_rename hp
    exact ⟨q, v, hq, rfl, rfl⟩
  · rintro ⟨q, v, hq, rfl, rfl⟩
    exact ⟨f q, value v, (get?_rename_eq_some hf).mpr ⟨q, v, hq, rfl, rfl⟩, rfl, rfl⟩

theorem rename_id (d : Dict Nat V) : d.rename id id = d := by
  refine ext_get? fun k => ?_
  rw [get?_rename]
  exact congrArg (List.lookup k) (List.map_id d.entries)

end
end QuantumOps.Dict
