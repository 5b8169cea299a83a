/-!
Finite sets of qubits as increasing lists, so that equal sets are equal lists and a set is shown in
the order of its qubits. -/
namespace QuantumOps

/-- A finite set of qubits. -/
structure QubitSet where
  elements : List Nat
  sorted : elements.Pairwise (· < ·)
  deriving DecidableEq, Repr

namespace QubitSet

def empty : QubitSet := ⟨[], .nil⟩

instance : EmptyCollection QubitSet := ⟨empty⟩

instance : Inhabited QubitSet := ⟨∅⟩

instance : Membership Nat QubitSet := ⟨fun s q => q ∈ s.elements⟩

instance (q : Nat) (s : QubitSet) : Decidable (q ∈ s) :=
  inferInstanceAs (Decidable (q ∈ s.elements))

def isEmpty (s : QubitSet) : Bool := s.elements.isEmpty

def size (s : QubitSet) : Nat := s.elements.length

/-- An increasing list with `q` put in its place, if it is not there. -/
def insertElement (q : Nat) : List Nat → List Nat
  | [] => [q]
  | p :: rest =>
    if q < p then q :: p :: rest
    else if p < q then p :: insertElement q rest
    else p :: rest

@[simp] theorem mem_insertElement {p q : Nat} :
    ∀ {l : List Nat}, p ∈ insertElement q l ↔ p = q ∨ p ∈ l
  | [] => by simp [insertElement]
  | a :: rest => by
    rw [insertElement]
    split
    · simp
    · split
      · simp only [List.mem_cons, mem_insertElement (l := rest)]
        grind
      · simp only [List.mem_cons]
        grind

/-- Increasing lists with the same elements are equal. -/
theorem eq_of_sorted {l : List Nat} (hl : l.Pairwise (· < ·)) :
    ∀ {k : List Nat}, k.Pairwise (· < ·) → (∀ q, q ∈ l ↔ q ∈ k) → l = k := by
  induction l with
  | nil =>
    intro k _ h
    cases k with
    | nil => rfl
    | cons b k => exact absurd ((h b).2 (by simp)) (by simp)
  | cons a l ih =>
    intro k hk h
    cases k with
    | nil => exact absurd ((h a).1 (by simp)) (by simp)
    | cons b k =>
      obtain ⟨ha, hl'⟩ := List.pairwise_cons.1 hl
      obtain ⟨hb, hk'⟩ := List.pairwise_cons.1 hk
      have hab : a = b := by
        rcases List.mem_cons.1 ((h a).1 (by simp)) with rfl | hak
        · rfl
        · rcases List.mem_cons.1 ((h b).2 (by simp)) with rfl | hbl
          · rfl
          · exact absurd (hb a hak) (by simpa using Nat.le_of_lt (ha b hbl))
      subst hab
      have hs : ∀ q, q ∈ l ↔ q ∈ k := by
        intro q
        constructor
        · intro hq
          rcases List.mem_cons.1 ((h q).1 (by simp [hq])) with rfl | hqk
          · exact absurd (ha q hq) (Nat.lt_irrefl q)
          · exact hqk
        · intro hq
          rcases List.mem_cons.1 ((h q).2 (by simp [hq])) with rfl | hql
          · exact absurd (hb q hq) (Nat.lt_irrefl q)
          · exact hql
      rw [ih hl' hk' hs]

theorem sorted_insertElement {q : Nat} :
    ∀ {l : List Nat}, l.Pairwise (· < ·) → (insertElement q l).Pairwise (· < ·)
  | [], _ => by simp [insertElement]
  | a :: rest, h => by
    obtain ⟨ha, hr⟩ := List.pairwise_cons.1 h
    rw [insertElement]
    split
    · rename_i hq
      exact List.pairwise_cons.2 ⟨by simpa [hq] using fun b hb => Nat.lt_trans hq (ha b hb), h⟩
    · split
      · rename_i hq
        refine List.pairwise_cons.2 ⟨fun b hb => ?_, sorted_insertElement hr⟩
        rcases mem_insertElement.1 hb with rfl | hb
        · exact hq
        · exact ha b hb
      · exact h

def insert (s : QubitSet) (q : Nat) : QubitSet :=
  ⟨insertElement q s.elements, sorted_insertElement s.sorted⟩

def ofList (l : List Nat) : QubitSet := l.foldl insert ∅

def union (s t : QubitSet) : QubitSet := t.elements.foldl insert s

instance : Union QubitSet := ⟨union⟩

theorem mem_def {s : QubitSet} {q : Nat} : q ∈ s ↔ q ∈ s.elements := Iff.rfl

/-- Sets with the same qubits are equal. -/
@[ext] theorem ext {s t : QubitSet} (h : ∀ q, q ∈ s ↔ q ∈ t) : s = t := by
  cases s with
  | mk l hl =>
    cases t with
    | mk k hk =>
      have hlk : l = k := eq_of_sorted hl hk h
      subst hlk
      rfl

@[simp] theorem not_mem_empty (q : Nat) : q ∉ (∅ : QubitSet) := by
  intro h
  cases h

@[simp] theorem mem_insert {s : QubitSet} {p q : Nat} : p ∈ s.insert q ↔ p = q ∨ p ∈ s :=
  mem_insertElement

theorem mem_foldl_insert {l : List Nat} {p : Nat} :
    ∀ {s : QubitSet}, p ∈ l.foldl insert s ↔ p ∈ l ∨ p ∈ s := by
  induction l with
  | nil => simp
  | cons a l ih =>
    intro s
    rw [List.foldl_cons, ih]
    grind [mem_insert]

@[simp] theorem mem_ofList {l : List Nat} {p : Nat} : p ∈ ofList l ↔ p ∈ l := by
  simp [ofList, mem_foldl_insert]

@[simp] theorem mem_union {s t : QubitSet} {p : Nat} : p ∈ s ∪ t ↔ p ∈ s ∨ p ∈ t := by
  rw [show s ∪ t = t.elements.foldl insert s from rfl, mem_foldl_insert, mem_def (s := s)]
  grind [mem_def]

end QubitSet
end QuantumOps
