import QuantumOps.Proofs.Expression.Location

/-! The names that a text mentions. A name is looked up where it is not called, and nowhere else; a
call finds its function by the name and never by a value that the name is given. -/
namespace QuantumOps.Expression

instance (rest : List Token) : Decidable (Uncalled rest) :=
  inferInstanceAs (Decidable (∀ t ∈ rest.head?, t.kind ≠ .leftParen))

/-- The names among the tokens that are not called. -/
def mentioned : List Token → List String
  | [] => []
  | t :: rest =>
    if t.kind = .identifier ∧ Uncalled rest then t.lexeme :: mentioned rest else mentioned rest

/-- The names that a text mentions and does not call there. -/
def names (source : String) : List String := mentioned (tokenize source).tokens

theorem mem_mentioned_iff {name : String} {ts : List Token} : name ∈ mentioned ts ↔
    ∃ before t rest, ts = before ++ t :: rest ∧ t.kind = .identifier ∧ Uncalled rest ∧
      t.lexeme = name := by
  induction ts with
  | nil => simp [mentioned]
  | cons u ts ih =>
    have hlater : name ∈ mentioned ts → ∃ before t rest, u :: ts = before ++ t :: rest ∧
        t.kind = .identifier ∧ Uncalled rest ∧ t.lexeme = name := by
      intro h
      obtain ⟨before, t, rest, rfl, ht⟩ := ih.mp h
      exact ⟨u :: before, t, rest, rfl, ht⟩
    constructor
    · intro h
      rw [mentioned] at h
      split at h
      · rename_i hu
        rcases List.mem_cons.mp h with rfl | h
        · exact ⟨[], u, ts, rfl, hu.1, hu.2, rfl⟩
        · exact hlater h
      · exact hlater h
    · rintro ⟨before, t, rest, hts, hk, hu, rfl⟩
      rw [mentioned]
      cases before with
      | nil =>
        obtain ⟨rfl, rfl⟩ := List.cons.inj hts
        rw [if_pos ⟨hk, hu⟩]
        exact List.mem_cons_self
      | cons b before =>
        obtain ⟨rfl, rfl⟩ := List.cons.inj hts
        have hmem := ih.mpr ⟨before, t, rest, rfl, hk, hu, rfl⟩
        split
        · exact List.mem_cons_of_mem _ hmem
        · exact hmem

/-- The comparison of a text with itself, at which only some names are looked at. -/
def Comparison.within (looked : String → Prop) (strict : Prop) (ending : Ending) : Comparison where
  columns := Eq
  names := looked
  strict := strict
  common := 0
  ending := ending
  ending' := ending

theorem Comparison.same_within {looked : String → Prop} {strict : Prop} {ending : Ending}
    {ts : List Token} (h : ∀ name ∈ mentioned ts, looked name) :
    (within looked strict ending).Same ts ts := by
  induction ts with
  | nil => exact .ended rfl (.refl ending)
  | cons t ts ih =>
    rw [mentioned] at h
    split at h
    · obtain ⟨ht, hts⟩ := List.forall_mem_cons.mp h
      exact .cons ⟨rfl, rfl, rfl⟩ (fun _ _ => ht) (ih hts)
    · rename_i hn
      exact .cons ⟨rfl, rfl, rfl⟩ (fun hk hu => absurd ⟨hk, hu⟩ hn) (ih h)

section
variable {R : Type} [Numeric R] {vars vars' : Variables R} {source : String}

/-- Numbers under two assignments go together where the names that are looked at do. -/
theorem Simulates.numbers {cmp : Comparison}
    (h : ∀ name, cmp.names name → cmp.Meets Eq (nameValue vars name) (nameValue vars' name)) :
    Simulates cmp Eq (numbers vars) (numbers vars') :=
  { Simulates.refl cmp (Expression.numbers vars) with name := h }

theorem evaluate_agrees (looked : String → Prop) (strict : Prop)
    (hnames : ∀ name ∈ names source, looked name)
    (h : ∀ name, looked name → (Comparison.within looked strict (tokenize source).ending).Meets Eq
      (nameValue vars name) (nameValue vars' name)) :
    (Comparison.within looked strict (tokenize source).ending).Agrees Eq
      ((tokenize source).reading (numbers vars)) ((tokenize source).reading (numbers vars')) :=
  Tokens.reading_agrees (.numbers h) rfl rfl (Comparison.same_within hnames)

theorem nameValue_congr {name : String} (h : vars.get? name = vars'.get? name) :
    nameValue vars name = nameValue vars' name := by
  rw [nameValue, nameValue, h]

theorem nameValue_insert {name other : String} (x : R) (h : other ≠ name) :
    nameValue (vars.insert name x) other = nameValue vars other :=
  nameValue_congr (by rw [Dict.get?_insert, if_neg h])

/-- Assignments with the same values for the names that a text mentions give it the same value or
the same failure. -/
theorem evaluate_congr (h : ∀ name ∈ names source, vars.get? name = vars'.get? name) :
    evaluate vars source = evaluate vars' source := by
  have hagrees : Comparison.Agrees _ _ ((tokenize source).reading (numbers vars))
      ((tokenize source).reading (numbers vars')) :=
    evaluate_agrees (· ∈ names source) True (fun _ hn => hn) fun name hn =>
      nameValue_congr (h name hn) ▸ .refl _
  rw [evaluate, evaluate, Tokens.read_eq, Tokens.read_eq]
  generalize (tokenize source).reading (numbers vars) = r at hagrees
  generalize (tokenize source).reading (numbers vars') = r' at hagrees
  cases hagrees with
  | done hv => rw [Reading.outcome, Reading.outcome, hv]
  | failed he =>
    obtain ⟨column, rfl, hc⟩ := he
    have hc : _ = column := hc
    rw [Reading.outcome, Reading.outcome, ← hc, Error.inColumn_column]
  | meaning hs => exact absurd trivial hs
  | beyond h => exact absurd h (Nat.not_lt_zero _)

/-- A name that had no meaning does not change a value when it gets one. -/
theorem evaluate_insert_eq_ok {name : String} (x : R) {v : R} (hname : nameValue vars name = none)
    (h : evaluate vars source = .ok v) : evaluate (vars.insert name x) source = .ok v := by
  have hmeets : ∀ other, True → (Comparison.within (fun _ => True) False
      (tokenize source).ending).Meets Eq (nameValue vars other)
        (nameValue (vars.insert name x) other) := by
    intro other _
    by_cases hother : other = name
    · -- nothing is asked at the name, since the first reading fails there
      rw [hother, hname]
      refine ⟨fun v hv => ?_, fun hstrict => False.elim hstrict⟩
      cases hv
    · rw [nameValue_insert x hother]
      exact .refl _
  have hagrees := evaluate_agrees (fun _ => True) False (fun _ _ => trivial) hmeets
  rw [evaluate, Tokens.read_eq] at h ⊢
  generalize (tokenize source).reading (numbers vars) = r at hagrees h
  generalize (tokenize source).reading (numbers (vars.insert name x)) = r' at hagrees
  cases hagrees with
  | done hv => rw [← h, Reading.outcome, Reading.outcome, hv]
  | failed | meaning => cases h
  | beyond h => exact absurd h (Nat.not_lt_zero _)

theorem evaluateFinite_congr (h : ∀ name ∈ names source, vars.get? name = vars'.get? name) :
    evaluateFinite vars source = evaluateFinite vars' source := by
  rw [evaluateFinite, evaluateFinite, evaluate_congr h]

end
end QuantumOps.Expression
