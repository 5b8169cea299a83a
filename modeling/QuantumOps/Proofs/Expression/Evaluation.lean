import QuantumOps.Proofs.Expression.Completeness
import QuantumOps.Proofs.Expression.Meaning

/-! The value of a text is the value of its syntax tree by the rules. A text without a fault has at
most one tree, and the tree has a value unless a name in it is unset, a function that it calls does
not exist or a divisor in it is zero. -/
namespace QuantumOps.Expression

theorem Tokens.noError_iff (text : Tokens) :
    (∀ entry ∈ text.entries, entry.name ≠ "Error") ↔ ∃ column, text.ending = .endOfText column := by
  have htok : ∀ t : Token, t.kind.name ≠ "Error" := by
    intro t
    cases t.kind <;> decide
  constructor
  · intro h
    have he := h text.ending.entry (by simp [entries])
    cases hend : text.ending with
    | endOfText column => exact ⟨column, rfl⟩
    | fault cause column => simp [hend, Ending.entry, Ending.name] at he
  · rintro ⟨column, hend⟩ entry hentry
    simp only [entries, List.mem_append, List.mem_map, List.mem_singleton] at hentry
    rcases hentry with ⟨t, -, rfl⟩ | rfl
    · exact htok t
    · simp [hend, Ending.entry, Ending.name]

section
variable {V : Type}

theorem Derives.sum_result {alg : Algebra V} {column : Nat} {ts : List Token} {t : Tree} {v : V}
    (h : Derives .sum ts t) (hv : t.value alg = some v) :
    (sum alg (.endOfText column) ts).result = some (v, []) := by
  have hs : (sum alg (.endOfText column) (ts ++ [])).result = some (v, []) :=
    (h.reads hv).sum_of_ends (Phrase.endsBefore_nil _)
  rwa [List.append_nil] at hs

/-- No two derivations have the same tokens. -/
theorem Derives.unique {ts : List Token} {t t' : Tree} (h : Derives .sum ts t)
    (h' : Derives .sum ts t') : t = t' := by
  have ht : (sum trees (.endOfText 0) ts).result = some (t, []) := h.sum_result t.value_trees
  rw [h'.sum_result t'.value_trees] at ht
  cases ht
  rfl

theorem Tokens.read_eq_ok_iff (alg : Algebra V) (text : Tokens) (v : V) :
    text.read alg = .ok v ↔ (∃ column, text.ending = .endOfText column) ∧
      ∃ t, Derives .sum text.tokens t ∧ t.value alg = some v := by
  obtain ⟨tokens, ending⟩ := text
  constructor
  · intro h
    simp only [read] at h
    split at h
    · rename_i w rest hlt hr
      cases h
      have hr := past_result (congrArg Reading.result hr)
      cases tokens with
      | nil => simp at hr
      | cons t ts =>
        obtain ⟨w, rest', hlt', hs, hend⟩ := Reading.andThen_result hr.2
        obtain ⟨us, tree, hus, hd, hv, ha⟩ := sum_sound hs
        cases rest' with
        | cons u us => simp at hend
        | nil =>
          cases hend
          rw [List.append_nil] at hus
          exact ⟨ha rfl, tree, hus ▸ hd, hv⟩
    · cases h
  · rintro ⟨⟨column, rfl⟩, t, hd, hv⟩
    obtain ⟨u, us, rfl, -⟩ := hd.head
    have hs : (sum alg (.endOfText column) (u :: us)).result = some (v, []) := hd.sum_result hv
    obtain ⟨hlt, he⟩ := Reading.andThen_of_result hs
    simp only [read, past_endOfText]
    rw [he]

end

/-- The functions that a text can call, with the numbers of their arguments. -/
def functions : List (String × Nat) :=
  ["sin", "cos", "tan", "asin", "acos", "atan", "exp", "log", "sqrt", "abs"].map (·, 1) ++
    ["atan2", "pow", "max", "min"].map (·, 2)

section
variable {R : Type} [Numeric R]

theorem call_isSome_iff (name : String) (args : List R) :
    (call name args).isSome ↔ (name, args.length) ∈ functions := by
  match args with
  | [] => simp [call, functions]
  | [x] =>
    simp [call, functions, unaryFunctions, List.lookup_isSome_iff]
  | [x, y] => simp [call, functions, binaryFunctions, List.lookup_isSome_iff]
  | _ :: _ :: _ :: _ => simp [call, functions]

theorem exists_applies_iff {name : String} {args : List R} :
    (∃ y, Applies name args y) ↔ (name, args.length) ∈ functions := by
  rw [← call_isSome_iff, Option.isSome_iff_exists]
  exact exists_congr fun _ => call_eq_some_iff.symm

theorem nameValue_isNone_iff (vars : Variables R) (name : String) :
    nameValue vars name = none ↔ vars.get? name = none ∧ name ≠ "pi" ∧ name ≠ "e" := by
  simp [nameValue, constants, List.lookup_eq_none_iff]

end

/-- The parts that a tree is made of. -/
def Tree.children : Tree → List Tree
  | number _ | name _ => []
  | call _ args => args
  | group t | pos t | neg t => [t]
  | add l r | sub l r | mul l r | div l r | pow l r => [l, r]

/-- The tree itself, its children, their children and so on. -/
inductive Tree.Contains : Tree → Tree → Prop
  | self (t : Tree) : Contains t t
  | child {t c s : Tree} (hc : c ∈ t.children) (hs : Contains c s) : Contains t s

section
variable {R : Type} [Numeric R]

/-- The tree has no value for a reason that lies at its root: an unset name, a function that does
not exist or a divisor equal to zero. -/
def Tree.Faulty (vars : Variables R) : Tree → Prop
  | name n => vars.get? n = none ∧ n ≠ "pi" ∧ n ≠ "e"
  | call n args => (n, args.length) ∉ functions
  | div _ r => ∃ y, Evaluates vars r y ∧ (y == 0) = true
  | _ => False

variable {vars : Variables R} {t s : Tree} {v : R}

theorem EvaluatesAll.length_eq {ts : List Tree} {xs : List R} (h : EvaluatesAll vars ts xs) :
    xs.length = ts.length := by
  cases h with
  | nil => rfl
  | cons _ hs => rw [List.length_cons, List.length_cons, hs.length_eq]

theorem Tree.Faulty.not_evaluates (h : t.Faulty vars) : ¬ Evaluates vars t v := by
  intro he
  cases he with
  | given hn => exact nomatch h.1.symm.trans hn
  | pi hn => exact h.2.1 rfl
  | e hn => exact h.2.2 rfl
  | call hargs ha => exact h (hargs.length_eq ▸ exists_applies_iff.mp ⟨_, ha⟩)
  | div hl hr hzero =>
    obtain ⟨y, hy, hy0⟩ := h
    rw [hr.unique hy, hy0] at hzero
    cases hzero
  | _ => exact h

theorem EvaluatesAll.exists_of_mem {ts : List Tree} {xs : List R} (h : EvaluatesAll vars ts xs)
    (ht : t ∈ ts) : ∃ x, Evaluates vars t x := by
  cases h with
  | nil => cases ht
  | cons h hs =>
    rcases List.mem_cons.mp ht with rfl | ht
    · exact ⟨_, h⟩
    · exact hs.exists_of_mem ht

/-- Where a tree has a value, its children have values. -/
theorem Evaluates.exists_child {c : Tree} (h : Evaluates vars t v) (hc : c ∈ t.children) :
    ∃ w, Evaluates vars c w := by
  cases h with
  | number | given | pi | e => cases hc
  | call hargs => exact hargs.exists_of_mem hc
  | group h | pos h | neg h =>
    obtain rfl := List.mem_singleton.mp hc
    exact ⟨_, h⟩
  | add hl hr | sub hl hr | mul hl hr | div hl hr | pow hl hr =>
    simp only [Tree.children, List.mem_cons, List.not_mem_nil, or_false] at hc
    rcases hc with rfl | rfl
    · exact ⟨_, hl⟩
    · exact ⟨_, hr⟩

theorem Evaluates.exists_part (h : Evaluates vars t v) (hs : t.Contains s) :
    ∃ w, Evaluates vars s w := by
  induction hs generalizing v with
  | self t => exact ⟨v, h⟩
  | child hc _ ih =>
    obtain ⟨w, hw⟩ := h.exists_child hc
    exact ih hw

mutual

/-- A tree without a faulty part has a value. -/
theorem Tree.exists_value : ∀ t : Tree, (∀ s, t.Contains s → ¬ s.Faulty vars) →
    ∃ v, Evaluates vars t v
  | number s, _ => ⟨_, .number⟩
  | name n, h => by
    have hn := h _ (.self _)
    rw [Faulty, ← nameValue_isNone_iff] at hn
    obtain ⟨v, hv⟩ := Option.ne_none_iff_exists'.mp hn
    exact ⟨v, nameValue_eq_some_iff.mp hv⟩
  | call n args, h => by
    obtain ⟨xs, hxs⟩ := exists_values args fun c hc s hs => h s (.child hc hs)
    have hn := h _ (.self _)
    rw [Faulty, Decidable.not_not, ← hxs.length_eq, ← exists_applies_iff] at hn
    obtain ⟨y, hy⟩ := hn
    exact ⟨y, .call hxs hy⟩
  | group t, h | pos t, h | neg t, h => by
    obtain ⟨v, hv⟩ := exists_value t fun s hs => h s (.child (.head _) hs)
    first
      | exact ⟨_, .group hv⟩
      | exact ⟨_, .pos hv⟩
      | exact ⟨_, .neg hv⟩
  | add l r, h | sub l r, h | mul l r, h | pow l r, h => by
    obtain ⟨x, hx⟩ := exists_value l fun s hs => h s (.child (.head _) hs)
    obtain ⟨y, hy⟩ := exists_value r fun s hs => h s (.child (.tail _ (.head _)) hs)
    first
      | exact ⟨_, .add hx hy⟩
      | exact ⟨_, .sub hx hy⟩
      | exact ⟨_, .mul hx hy⟩
      | exact ⟨_, .pow hx hy⟩
  | div l r, h => by
    obtain ⟨x, hx⟩ := exists_value l fun s hs => h s (.child (.head _) hs)
    obtain ⟨y, hy⟩ := exists_value r fun s hs => h s (.child (.tail _ (.head _)) hs)
    have hzero : ¬ (y == 0) = true := fun hzero => h _ (.self _) ⟨y, hy, hzero⟩
    exact ⟨x / y, .div hx hy (Bool.eq_false_iff.mpr hzero)⟩

theorem Tree.exists_values : ∀ ts : List Tree,
    (∀ t ∈ ts, ∀ s, t.Contains s → ¬ s.Faulty vars) → ∃ xs, EvaluatesAll vars ts xs
  | [], _ => ⟨[], .nil⟩
  | t :: ts, h => by
    obtain ⟨x, hx⟩ := Tree.exists_value t (h t (.head _))
    obtain ⟨xs, hxs⟩ := Tree.exists_values ts fun u hu => h u (.tail _ hu)
    exact ⟨x :: xs, .cons hx hxs⟩

end

theorem Tree.not_evaluates_iff (vars : Variables R) (t : Tree) :
    (∀ v, ¬ Evaluates vars t v) ↔ ∃ s, t.Contains s ∧ s.Faulty vars := by
  constructor
  · intro h
    apply Classical.byContradiction
    intro hs
    obtain ⟨v, hv⟩ := t.exists_value fun s hc hf => hs ⟨s, hc, hf⟩
    exact h v hv
  · rintro ⟨s, hc, hf⟩ v hv
    obtain ⟨w, hw⟩ := hv.exists_part hc
    exact hf.not_evaluates hw

/-- A text has a value just when no place in it is in error, it has a syntax tree, which is the only
one then, and the tree has the value. A tree has no value just when a part of it is faulty. -/
theorem evaluate_eq_ok_iff (vars : Variables R) (source : String) :
    (∀ v, evaluate vars source = .ok v ↔
      (∀ entry ∈ (tokenize source).entries, entry.name ≠ "Error") ∧
      ∃ t, Derives .sum (tokenize source).tokens t ∧
        (∀ t', Derives .sum (tokenize source).tokens t' → t' = t) ∧ Evaluates vars t v) ∧
    ∀ t : Tree, (∀ v, ¬ Evaluates vars t v) ↔ ∃ s, t.Contains s ∧ s.Faulty vars := by
  refine ⟨fun v => ?_, Tree.not_evaluates_iff vars⟩
  simp only [evaluate, Tokens.read_eq_ok_iff, Tokens.noError_iff, Tree.value_eq_some_iff]
  constructor
  · rintro ⟨hend, t, hd, hv⟩
    exact ⟨hend, t, hd, fun t' hd' => hd'.unique hd, hv⟩
  · rintro ⟨hend, t, hd, -, hv⟩
    exact ⟨hend, t, hd, hv⟩

end
end QuantumOps.Expression
