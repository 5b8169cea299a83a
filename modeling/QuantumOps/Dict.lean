/-!
Finite maps as lists of entries in the order of their keys. The order is part of the type, so that
two maps with the same entries are equal and an iteration is determined by the entries alone. -/
namespace QuantumOps

/-- A finite map: entries with strictly increasing keys. -/
structure Dict (K V : Type) [LT K] where
  entries : List (K × V)
  sorted : entries.Pairwise (fun a b => a.1 < b.1)
  deriving Repr

namespace Dict

variable {K V : Type} [LT K]

instance [DecidableEq K] [DecidableEq V] : DecidableEq (Dict K V) := fun a b =>
  decidable_of_iff (a.entries = b.entries)
    ⟨fun h => by cases a; cases b; simpa using h, fun h => h ▸ rfl⟩

def empty : Dict K V := ⟨[], .nil⟩

instance : Inhabited (Dict K V) := ⟨empty⟩

def keys (d : Dict K V) : List K := d.entries.map Prod.fst

/-- The value at a key, if the key has one. -/
def get? [DecidableEq K] (d : Dict K V) (k : K) : Option V := d.entries.lookup k

omit [LT K] in
theorem lookup_entry [DecidableEq K] {k k' : K} {v : V} {l : List (K × V)} :
    ((k, v) :: l).lookup k' = if k' = k then some v else l.lookup k' := by
  rw [List.lookup_cons]
  by_cases h : k' = k
  · rw [if_pos h, beq_iff_eq.2 h]
  · rw [if_neg h, beq_false_of_ne h]

@[simp] theorem get?_empty [DecidableEq K] {k : K} : (empty : Dict K V).get? k = none := rfl

/-- Maps with the same entries are equal. -/
@[ext] theorem ext {d e : Dict K V} (h : d.entries = e.entries) : d = e := by
  cases d with
  | mk l hl =>
    cases e with
    | mk k hk =>
      have hlk : l = k := h
      subst hlk
      rfl

section
variable [DecidableLT K]

/-- The entries with the value at `k` set to `v`. -/
def insertEntry (k : K) (v : V) : List (K × V) → List (K × V)
  | [] => [(k, v)]
  | e :: rest =>
    if k < e.1 then (k, v) :: e :: rest
    else if e.1 < k then e :: insertEntry k v rest
    else (k, v) :: rest

theorem mem_insertEntry {k : K} {v : V} {e : K × V} :
    ∀ {l : List (K × V)}, e ∈ insertEntry k v l → e = (k, v) ∨ e ∈ l
  | [], h => by simpa [insertEntry] using h
  | a :: rest, h => by
    rw [insertEntry] at h
    split at h
    · simpa using h
    · split at h
      · rcases List.mem_cons.1 h with rfl | h
        · simp
        · rcases mem_insertEntry h with rfl | h <;> simp [*]
      · rcases List.mem_cons.1 h with rfl | h <;> simp [*]

variable [LE K] [Std.IsLinearOrder K] [Std.LawfulOrderLT K]

theorem sorted_insertEntry {k : K} {v : V} :
    ∀ {l : List (K × V)}, l.Pairwise (fun a b => a.1 < b.1) →
      (insertEntry k v l).Pairwise (fun a b => a.1 < b.1)
  | [], _ => by simp [insertEntry]
  | a :: rest, h => by
    obtain ⟨ha, hr⟩ := List.pairwise_cons.1 h
    rw [insertEntry]
    split
    · rename_i hk
      refine List.pairwise_cons.2 ⟨fun b hb => ?_, h⟩
      rcases List.mem_cons.1 hb with rfl | hb
      · exact hk
      · exact Std.lt_trans hk (ha b hb)
    · split
      · rename_i hk
        refine List.pairwise_cons.2 ⟨fun b hb => ?_, sorted_insertEntry hr⟩
        rcases mem_insertEntry hb with rfl | hb
        · exact hk
        · exact ha b hb
      · rename_i h1 h2
        have hka : k = a.1 := Std.le_antisymm (Std.not_lt.1 h2) (Std.not_lt.1 h1)
        exact List.pairwise_cons.2 ⟨fun b hb => hka ▸ ha b hb, hr⟩

theorem lookup_insertEntry [DecidableEq K] {k k' : K} {v : V} {l : List (K × V)} :
    (insertEntry k v l).lookup k' = if k' = k then some v else l.lookup k' := by
  induction l with
  | nil => rw [insertEntry, lookup_entry]
  | cons a rest ih =>
    rw [insertEntry]
    split
    · rw [lookup_entry]
    · split
      · rename_i hak
        rw [lookup_entry, ih, lookup_entry]
        have hne : a.1 ≠ k := by
          intro h
          rw [h] at hak
          exact Std.lt_irrefl hak
        by_cases h : k' = a.1
        · rw [if_pos h, if_pos h, if_neg (h ▸ hne)]
        · rw [if_neg h, if_neg h]
      · rename_i h1 h2
        have hka : k = a.1 := Std.le_antisymm (Std.not_lt.1 h2) (Std.not_lt.1 h1)
        rw [lookup_entry, lookup_entry, ← hka]
        by_cases h : k' = k
        · rw [if_pos h, if_pos h]
        · rw [if_neg h, if_neg h, if_neg h]

/-- Sets the value at a key. -/
def insert (d : Dict K V) (k : K) (v : V) : Dict K V :=
  ⟨insertEntry k v d.entries, sorted_insertEntry d.sorted⟩

@[simp] theorem get?_insert [DecidableEq K] {d : Dict K V} {k k' : K} {v : V} :
    (d.insert k v).get? k' = if k' = k then some v else d.get? k' := lookup_insertEntry

/-- The map with the given entries, of which the last at a key counts. -/
def ofList (l : List (K × V)) : Dict K V := l.foldl (fun d e => d.insert e.1 e.2) empty

end

end Dict
end QuantumOps
