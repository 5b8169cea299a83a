import QuantumOps.Proofs.Expression.Failing
import QuantumOps.Numeric.Float

/-! Where the failure of an expression lies, and how much of the text it depends on. A text fails at
the first token after which it can no longer become an expression, at a fault if it breaks off
before, or at the part that has no value as soon as that part and the token after it are read. -/
namespace QuantumOps.Expression

section
variable {V W : Type} {alg : Algebra V} {text text' : Tokens} {e : Error}

/-- How many entries of the text have been brought into sight when reading it ends. -/
def Tokens.requested (alg : Algebra V) (text : Tokens) : Nat :=
  text.tokens.length + 1 - (text.reading alg).left.length

/-- The comparison of texts that have their first entries in common, columns included. -/
def Comparison.upTo (strict : Prop) (common : Nat) (ending ending' : Ending) : Comparison where
  columns := Eq
  names _ := True
  strict := strict
  common := common
  ending := ending
  ending' := ending'

theorem Comparison.same_append {strict : Prop} {ending ending' : Ending} {t : Token}
    {rest rest' : List Token} (us : List Token) :
    (upTo strict (t :: rest).length ending ending').Same (us ++ t :: rest) (us ++ t :: rest') := by
  induction us with
  | nil => exact .last ⟨rfl, rfl, rfl⟩ rfl
  | cons u us ih => exact .cons ⟨rfl, rfl, rfl⟩ (fun _ _ => trivial) ih

theorem Ending.Alike.refl (ending : Ending) : ending.Alike Eq ending := by
  cases ending with
  | endOfText column => exact .endOfText rfl
  | fault cause column => exact .fault rfl

theorem Comparison.same_refl {strict : Prop} {ending ending' : Ending}
    (h : ending.Alike Eq ending') (ts : List Token) :
    (upTo strict 0 ending ending').Same ts ts := by
  induction ts with
  | nil => exact .ended rfl h
  | cons t ts ih => exact .cons ⟨rfl, rfl, rfl⟩ (fun _ _ => trivial) ih

theorem Reading.outcome_eq_error {n : Nat} {r : Reading V n} (h : r.outcome = .error e) :
    ∃ rest, r.failure = some (e, rest) ∧ r.left = rest := by
  cases r with
  | done v rest hlt => cases h
  | failed e' rest =>
    cases h
    exact ⟨rest, rfl, rfl⟩

/-- Where the first reading fails no later than at the last entry in common, the second fails. -/
theorem Comparison.Agrees.fails {cmp : Comparison} {R : V → W → Prop} {m n : Nat}
    {r : Reading V m} {r' : Reading W n} {rest : List Token} (h : cmp.Agrees R r r')
    (hf : r.failure = some (e, rest)) (hc : cmp.common ≤ rest.length)
    (hs : cmp.strict ∨ e.OfText) : ∃ e', r'.outcome = .error e' ∧ e.Alike cmp.columns e' := by
  cases h with
  | done => cases hf
  | failed he =>
    cases hf
    exact ⟨_, rfl, he⟩
  | meaning hs' he =>
    cases hf
    exact absurd hs (not_or.mpr ⟨hs', he⟩)
  | beyond h =>
    cases r with
    | done => cases hf
    | failed e' rest' =>
      cases hf
      exact absurd h (Nat.not_lt.mpr hc)

/-- A whole text fails right after tokens that an expression starts with. -/
theorem Tokens.reading_fails {rest : List Token}
    (h : (text.reading alg).failure = some (e, rest)) :
    Fails alg text.ending .sum text.tokens e rest := by
  obtain ⟨ts, ending⟩ := text
  refine past_fails [] (.nil .sum) h fun ha h => ?_
  cases ts with
  | nil => exact missing_fails [] (.nil .sum) ha h
  | cons t ts =>
    rcases Reading.andThen_failure h with h | ⟨v, rest', hlt, hs, h⟩
    · exact sum_fails ha h
    · obtain ⟨us, tree, hus, hd, -, ha⟩ := sum_sound hs
      rw [List.nil_append, hus]
      cases rest' with
      | nil => cases h
      | cons u rest' => exact missing_fails us hd.viable ha h

/-- No expression starts with the tokens up to the one at which the text fails. -/
theorem Tokens.not_viable {us rest : List Token} {t : Token}
    (h : (text.reading alg).failure = some (e, t :: rest)) (he : e.OfText)
    (ht : text.tokens = us ++ t :: rest) : ¬ Viable .sum (us ++ [t]) := by
  rintro ⟨more, tree, hd⟩
  rw [List.append_assoc] at hd
  have hread : (⟨us ++ t :: more, .endOfText 0⟩ : Tokens).read trees = .ok tree :=
    (Tokens.read_eq_ok_iff trees _ tree).mpr ⟨⟨0, rfl⟩, tree, hd, tree.value_trees⟩
  have hsame : (Comparison.upTo False (t :: rest).length text.ending (.endOfText 0)).Same
      text.tokens (us ++ t :: more) := ht ▸ Comparison.same_append us
  have hagrees : Comparison.Agrees _ _ (text.reading alg)
      ((⟨us ++ t :: more, .endOfText 0⟩ : Tokens).reading trees) :=
    Tokens.reading_agrees (Simulates.trees id alg) rfl rfl hsame
  obtain ⟨e', hfail, -⟩ := hagrees.fails h (Nat.le_refl _) (.inr he)
  rw [← Tokens.read_eq, hread] at hfail
  cases hfail

/-- Where a text fails at its end, it is no expression. -/
theorem Tokens.not_derives (h : (text.reading alg).failure = some (e, [])) (he : e.OfText)
    (hend : ∃ column, text.ending = .endOfText column) (tree : Tree) :
    ¬ Derives .sum text.tokens tree := by
  intro hd
  have hread : text.read trees = .ok tree :=
    (Tokens.read_eq_ok_iff trees _ tree).mpr ⟨hend, tree, hd, tree.value_trees⟩
  have hsame : (Comparison.upTo False 0 text.ending text.ending).Same text.tokens text.tokens :=
    Comparison.same_refl (.refl _) _
  have hagrees := Tokens.reading_agrees (Simulates.trees id alg) rfl rfl hsame
  obtain ⟨e', hfail, -⟩ := hagrees.fails h (Nat.le_refl _) (.inr he)
  rw [← Tokens.read_eq, hread] at hfail
  cases hfail

end

/-! The entries of a text determine its tokens and its ending. -/

theorem Token.entry_injective {t u : Token} (h : t.entry = u.entry) : t = u := by
  obtain ⟨kind, lexeme, column⟩ := t
  obtain ⟨kind', lexeme', column'⟩ := u
  simp only [entry, Entry.mk.injEq] at h
  obtain ⟨hk, rfl, rfl⟩ := h
  have hkinds : ∀ k k' : Token.Kind, k.name = k'.name → k = k' := by
    intro k k' h
    cases k <;> cases k' <;> first
      | rfl
      | exact absurd h (by decide)
  rw [hkinds kind kind' hk]

theorem Ending.entry_injective {e e' : Ending} (h : e.entry = e'.entry) : e = e' := by
  cases e with
  | endOfText column =>
    cases e' with
    | endOfText column' =>
      cases congrArg Entry.column h
      rfl
    | fault cause column' => exact absurd (congrArg Entry.name h) (by decide : "EndOfFile" ≠ "Error")
  | fault cause column =>
    cases e' with
    | endOfText column' => exact absurd (congrArg Entry.name h) (by decide : "Error" ≠ "EndOfFile")
    | fault cause' column' =>
      cases congrArg Entry.column h
      have hcause : cause.message = cause'.message := congrArg Entry.lexeme h
      cases cause <;> cases cause' <;> first
        | rfl
        | exact absurd hcause (by decide)

theorem Token.Kind.name_ne (kind : Token.Kind) :
    kind.name ≠ "EndOfFile" ∧ kind.name ≠ "Error" := by
  cases kind <;> decide

theorem Token.entry_ne (t : Token) (ending : Ending) : t.entry ≠ ending.entry := by
  intro h
  have hname : t.kind.name = ending.name := congrArg Entry.name h
  cases ending with
  | endOfText => exact t.kind.name_ne.1 hname
  | fault => exact t.kind.name_ne.2 hname

theorem Tokens.exists_of_take {us ts : List Token} {ending : Ending}
    (h : (ts.map Token.entry ++ [ending.entry]).take us.length = us.map Token.entry) :
    ∃ rest, ts = us ++ rest := by
  induction us generalizing ts with
  | nil => exact ⟨ts, rfl⟩
  | cons u us ih =>
    cases ts with
    | nil =>
      simp only [List.map_nil, List.nil_append, List.length_cons, List.take_succ_cons,
        List.map_cons, List.cons.injEq] at h
      exact absurd h.1.symm (u.entry_ne ending)
    | cons t ts =>
      simp only [List.map_cons, List.cons_append, List.length_cons, List.take_succ_cons,
        List.cons.injEq] at h
      obtain ⟨rest, rfl⟩ := ih h.2
      exact ⟨rest, by rw [Token.entry_injective h.1, List.cons_append]⟩

theorem Tokens.entries_take (us rest : List Token) (ending : Ending) :
    (⟨us ++ rest, ending⟩ : Tokens).entries.take (us.length + 1) =
      us.map Token.entry ++ (rest.map Token.entry ++ [ending.entry]).take 1 := by
  have hlen : us.length = (us.map Token.entry).length := (List.length_map _).symm
  rw [entries, List.map_append, List.append_assoc, hlen, List.take_length_add_append]

/-- Two texts with entries in common have the tokens in common that these stand for. -/
theorem Tokens.eq_of_take {us rest : List Token} {text text' : Tokens}
    (ht : text.tokens = us ++ rest)
    (h : text'.entries.take (us.length + 1) = text.entries.take (us.length + 1)) :
    ∃ rest', text'.tokens = us ++ rest' ∧
      ((∃ t r r', rest = t :: r ∧ rest' = t :: r') ∨
        rest = [] ∧ rest' = [] ∧ text'.ending = text.ending) := by
  obtain ⟨ts, ending⟩ := text
  obtain ⟨ts', ending'⟩ := text'
  have ht : ts = us ++ rest := ht
  subst ht
  rw [Tokens.entries_take us rest ending] at h
  have hus : (ts'.map Token.entry ++ [ending'.entry]).take us.length = us.map Token.entry := by
    have htake := congrArg (List.take us.length) h
    rw [entries, List.take_take, Nat.min_eq_left (Nat.le_succ _)] at htake
    rw [htake, List.take_append_of_le_length (by simp)]
    exact List.take_of_length_le (by simp)
  obtain ⟨rest', rfl⟩ := Tokens.exists_of_take hus
  refine ⟨rest', rfl, ?_⟩
  -- the entry after the tokens in common
  rw [Tokens.entries_take us rest' ending'] at h
  have hnext := List.append_cancel_left h
  cases rest with
  | nil =>
    cases rest' with
    | nil =>
      simp only [List.map_nil, List.nil_append, List.take_succ_cons, List.take_zero,
        List.cons.injEq, and_true] at hnext
      exact .inr ⟨rfl, rfl, Ending.entry_injective hnext⟩
    | cons u rest' =>
      simp only [List.map_nil, List.nil_append, List.map_cons, List.cons_append,
        List.take_succ_cons, List.take_zero, List.cons.injEq, and_true] at hnext
      exact absurd hnext (u.entry_ne ending)
  | cons t rest =>
    cases rest' with
    | nil =>
      simp only [List.map_nil, List.nil_append, List.map_cons, List.cons_append,
        List.take_succ_cons, List.take_zero, List.cons.injEq, and_true] at hnext
      exact absurd hnext.symm (t.entry_ne ending')
    | cons u rest' =>
      simp only [List.map_cons, List.cons_append, List.take_succ_cons, List.take_zero,
        List.cons.injEq, and_true] at hnext
      exact .inl ⟨t, rest, rest', rfl, by rw [Token.entry_injective hnext]⟩

/-- The entries brought into sight are the tokens passed and one more. -/
theorem Tokens.requested_eq {V : Type} {alg : Algebra V} {text : Tokens} {seen : List Token}
    (h : text.tokens = seen ++ (text.reading alg).left) :
    text.requested alg = seen.length + 1 := by
  rw [requested]
  nth_rewrite 1 [h]
  rw [List.length_append]
  omega

/-- A text with the same entries, as far as they have been brought into sight, fails alike. -/
theorem Tokens.read_eq_error {V : Type} {alg : Algebra V} {text text' : Tokens} {e : Error}
    (h : text.read alg = .error e) (ht : text'.entries.take (text.requested alg) =
      text.entries.take (text.requested alg)) : text'.read alg = .error e := by
  rw [Tokens.read_eq] at h
  obtain ⟨rest, hf, hleft⟩ := Reading.outcome_eq_error h
  obtain ⟨us, hus, -, -⟩ := Tokens.reading_fails hf
  rw [Tokens.requested_eq (hleft ▸ hus)] at ht
  obtain ⟨rest', hus', hcommon⟩ := Tokens.eq_of_take hus ht
  have hsame : (Comparison.upTo True rest.length text.ending text'.ending).Same text.tokens
      text'.tokens := by
    rw [hus, hus']
    rcases hcommon with ⟨t, r, r', rfl, rfl⟩ | ⟨rfl, rfl, hend⟩
    · exact Comparison.same_append us
    · exact Comparison.same_refl (hend ▸ .refl _) _
  obtain ⟨e', hfail, column, rfl, hcolumn⟩ := (Tokens.reading_agrees (.refl _ alg) rfl rfl
    hsame).fails hf (Nat.le_refl _) (.inl trivial)
  have hcolumn : e.column = column := hcolumn
  rw [Tokens.read_eq, hfail, ← hcolumn, Error.inColumn_column]

/-- The column of a failure is that of a token passed or of the entry in sight. -/
theorem Cause.exists_entry {V : Type} {alg : Algebra V} {ending : Ending} {seen rest : List Token}
    {e : Error} (h : Cause alg ending seen rest e) :
    ∃ entry ∈ (⟨seen ++ rest, ending⟩ : Tokens).entries.take (seen.length + 1),
      entry.column = e.column := by
  rw [Tokens.entries_take]
  have hseen : ∀ t ∈ seen, ∃ entry ∈ seen.map Token.entry ++
      (rest.map Token.entry ++ [ending.entry]).take 1, entry.column = t.column := fun t ht =>
    ⟨t.entry, List.mem_append_left _ (List.mem_map_of_mem ht), rfl⟩
  match e, h with
  | .lexical .., ⟨hrest, hend⟩ | .unexpected _ none _, ⟨hrest, hend⟩ =>
    rw [hrest, hend]
    exact ⟨_, List.mem_append_right _ (.head _), rfl⟩
  | .unexpected _ (some _) _, ⟨t, ht, hlexeme, hcolumn⟩ =>
    obtain ⟨rest, rfl⟩ := List.head?_eq_some_iff.mp ht
    exact ⟨t.entry, List.mem_append_right _ (.head _), hcolumn⟩
  | .unset .., ⟨before, t, hts, _, _, hcolumn, _⟩ =>
    rw [← hcolumn]
    exact hseen t (by simp [hts])
  | .unknownFunction .., ⟨before, f, o, after, _, _, hts, _, _, _, hcolumn, _⟩ =>
    rw [← hcolumn]
    exact hseen f (by simp [hts])
  | .zeroDivisor .., ⟨before, o, after, _, _, _, hts, _, hcolumn, _⟩ =>
    rw [← hcolumn]
    exact hseen o (by simp [hts])

section
variable {R : Type} [Numeric R]

/-- What each failure says about the text, and where: with the tokens passed, which some expression
starts with, and those from the one in sight on. -/
inductive Located (vars : Variables R) (text : Tokens) : List Token → List Token → Error → Prop
  /-- The text breaks off. -/
  | lexical {passed : List Token} {cause : LexicalFault} {column : Nat}
      (h : text.ending = .fault cause column) : Located vars text passed [] (.lexical cause column)
  /-- No expression goes on with the token in sight. -/
  | token {wanted : Wanted} {passed rest : List Token} {t : Token}
      (hn : ¬ Viable .sum (passed ++ [t])) :
      Located vars text passed (t :: rest) (.unexpected wanted (some t.lexeme) t.column)
  /-- The text has ended and is no expression. -/
  | ended {wanted : Wanted} {passed : List Token} {column : Nat}
      (h : text.ending = .endOfText column) (hn : ∀ tree, ¬ Derives .sum passed tree) :
      Located vars text passed [] (.unexpected wanted none column)
  /-- The name passed last is not called and has no value. -/
  | unset {before rest : List Token} {t : Token} (hk : t.kind = .identifier) (hu : Uncalled rest)
      (hv : vars.get? t.lexeme = none) (hpi : t.lexeme ≠ "pi") (he : t.lexeme ≠ "e") :
      Located vars text (before ++ [t]) rest (.unset t.lexeme t.column)
  /-- No function has the name called last and takes so many arguments. -/
  | unknownFunction {before after rest : List Token} {f o : Token} {args : List Tree}
      (hk : f.kind = .identifier) (ho : o.kind = .leftParen)
      (hc : Derives .primary (f :: o :: after) (.call f.lexeme args))
      (hn : (f.lexeme, args.length) ∉ functions) : Located vars text (before ++ f :: o :: after)
        rest (.unknownFunction f.lexeme args.length f.column)
  /-- The divisor passed last has the value zero. -/
  | zeroDivisor {before divisor rest : List Token} {o : Token} {t : Tree} {y : R}
      (hk : o.kind = .slash) (hd : Derives .unary divisor t)
      (hy : t.value (numbers vars) = some y) (hz : (y == 0) = true) :
      Located vars text (before ++ o :: divisor) rest (.zeroDivisor o.column)

theorem Tokens.located {vars : Variables R} {text : Tokens} {e : Error} {rest : List Token}
    (h : (text.reading (numbers vars)).failure = some (e, rest)) :
    ∃ passed, text.tokens = passed ++ rest ∧ Viable .sum passed ∧
      Located vars text passed rest e := by
  obtain ⟨passed, hts, hv, hc⟩ := Tokens.reading_fails h
  refine ⟨passed, hts, hv, ?_⟩
  match e, hc with
  | .lexical .., ⟨hrest, hend⟩ =>
    subst hrest
    exact .lexical hend
  | .unexpected _ none _, ⟨hrest, hend⟩ =>
    subst hrest
    rw [List.append_nil] at hts
    exact .ended hend (hts ▸ Tokens.not_derives h (.inr rfl) ⟨_, hend⟩)
  | .unexpected _ (some _) _, ⟨t, ht, hlexeme, hcolumn⟩ =>
    obtain ⟨rest, rfl⟩ := List.head?_eq_some_iff.mp ht
    subst hlexeme
    subst hcolumn
    exact .token (Tokens.not_viable h (.inr rfl) hts)
  | .unset .., ⟨before, t, hpassed, hk, hlexeme, hcolumn, hu, hnone⟩ =>
    subst hlexeme
    subst hcolumn
    obtain ⟨hnone, hpi, he⟩ := (nameValue_isNone_iff vars t.lexeme).mp hnone
    rw [hpassed]
    exact .unset hk hu hnone hpi he
  | .unknownFunction .., ⟨before, f, o, after, args, vs, hpassed, hk, ho, hlexeme, hcolumn, hd,
      hvs, harity, hnone⟩ =>
    subst hlexeme
    subst hcolumn
    subst harity
    have hlen := (Tree.evaluatesAll hvs).length_eq
    have hn : (f.lexeme, args.length) ∉ functions := by
      have hcall : call f.lexeme vs = none := hnone
      rw [← hlen, ← call_isSome_iff, hcall]
      simp
    rw [hlen, hpassed]
    exact .unknownFunction hk ho hd hn
  | .zeroDivisor .., ⟨before, o, after, t, x, y, hpassed, hk, hcolumn, hd, hy, hnone⟩ =>
    subst hcolumn
    have hz : (y == 0) = true := by
      rw [numbers_div] at hnone
      by_contra hz
      simp [hz] at hnone
    rw [hpassed]
    exact .zeroDivisor hk hd hy hz

/-- A failure lies in the column of an entry that has been brought into sight, at the token that it
is about. Some expression starts with the tokens passed, and one entry more is in sight: every text
with the same entries up to that one fails in the same way. -/
theorem evaluate_eq_error {vars : Variables R} {source : String} {e : Error}
    (h : evaluate vars source = .error e) : ∃ passed rest,
      (tokenize source).tokens = passed ++ rest ∧ Viable .sum passed ∧
      Located vars (tokenize source) passed rest e ∧
      (tokenize source).requested (numbers vars) = passed.length + 1 ∧
      (∃ entry ∈ (tokenize source).entries.take (passed.length + 1), entry.column = e.column) ∧
      ∀ source' : String, (tokenize source').entries.take (passed.length + 1) =
        (tokenize source).entries.take (passed.length + 1) → evaluate vars source' = .error e := by
  have hread : (tokenize source).read (numbers vars) = .error e := h
  rw [Tokens.read_eq] at hread
  obtain ⟨rest, hf, hleft⟩ := Reading.outcome_eq_error hread
  obtain ⟨passed, hts, hv, hloc⟩ := Tokens.located hf
  have hrequested : (tokenize source).requested (numbers vars) = passed.length + 1 :=
    Tokens.requested_eq (hleft ▸ hts)
  refine ⟨passed, rest, hts, hv, hloc, hrequested, ?_, fun source' ht => ?_⟩
  · obtain ⟨seen, hts', -, hc⟩ := Tokens.reading_fails hf
    have hseen : seen = passed := List.append_cancel_right (hts'.symm.trans hts)
    have hentry := hc.exists_entry
    rwa [← hts', hseen] at hentry
  · rw [← hrequested] at ht
    exact Tokens.read_eq_error h ht

end

/-- A text that starts with a closing parenthesis fails there, though it breaks off later. -/
theorem evaluate_closing_paren :
    evaluate (Dict.empty : Variables Float) ") $" = .error (.unexpected .operand (some ")") 1) ∧
    ∃ passed rest, (tokenize ") $").tokens = passed ++ rest ∧ Viable .sum passed ∧
      Located (Dict.empty : Variables Float) (tokenize ") $") passed rest
        (.unexpected .operand (some ")") 1) ∧
      (tokenize ") $").requested (numbers (Dict.empty : Variables Float)) = passed.length + 1 ∧
      (∃ entry ∈ (tokenize ") $").entries.take (passed.length + 1), entry.column = 1) ∧
      ∀ source' : String, (tokenize source').entries.take (passed.length + 1) =
        (tokenize ") $").entries.take (passed.length + 1) →
        evaluate (Dict.empty : Variables Float) source' =
          .error (.unexpected .operand (some ")") 1) := by
  have htokens : tokenize ") $" = ⟨[⟨.rightParen, ")", 1⟩], .fault .unexpectedCharacter 3⟩ := by
    have hlist : ") $".toList = [')', ' ', '$'] := rfl
    rw [tokenize, hlist, scan_symbol (by decide) rfl, scan_blank (by decide),
      scan_fault (by decide) rfl]
    rfl
  have h : evaluate (Dict.empty : Variables Float) ") $" =
      .error (.unexpected .operand (some ")") 1) := by
    rw [evaluate, htokens]
    simp [Tokens.read, sum, product, unary, power, primary, past, missing, Reading.andThen]
  exact ⟨h, evaluate_eq_error h⟩

end QuantumOps.Expression
