import QuantumOps.Proofs.Expression.Tiling
import QuantumOps.Proofs.Expression.Location

/-! A text is taken apart into all that it holds, and nothing depends on how its tokens are spaced:
the lexemes with a space between any two are the same tokens, with the same value. -/
namespace QuantumOps.Expression

theorem tokenize_isLexeme (s : String) :
    ∀ t ∈ (tokenize s).tokens, IsLexeme t.kind t.lexeme.toList := by
  intro t ht
  obtain ⟨before, after, hts⟩ := List.append_of_mem ht
  exact ((tokenize_tiles s).token_placed before t after hts).longest.isLexeme

/-- The lexemes of the tokens with a space between any two. -/
def spaced (ts : List Token) : String := " ".intercalate (ts.map Token.lexeme)

theorem spaced_cons_cons (t u : Token) (ts : List Token) :
    (spaced (t :: u :: ts)).toList = t.lexeme.toList ++ ' ' :: (spaced (u :: ts)).toList := by
  simp [spaced, String.intercalate_cons_cons, String.toList_append]

/-- The tokens of the spaced lexemes are the same but for their columns. -/
theorem scan_spaced (ts : List Token) (h : ∀ t ∈ ts, IsLexeme t.kind t.lexeme.toList)
    (column : Nat) : ∃ us last, scan column (spaced ts).toList = ⟨us, .endOfText last⟩ ∧
      List.Forall₂ (Token.Alike fun _ _ => True) ts us := by
  induction ts generalizing column with
  | nil => exact ⟨[], column, scan_nil column, .nil⟩
  | cons t ts ih =>
    have halone := (h t (.head _)).scan column
    rw [String.ofList_toList] at halone
    cases ts with
    | nil =>
      have hspaced : spaced [t] = t.lexeme := String.intercalate_singleton
      rw [hspaced, halone]
      exact ⟨_, _, rfl, .cons ⟨rfl, rfl, trivial⟩ .nil⟩
    | cons u ts =>
      obtain ⟨us, last, hus, hall⟩ := ih (fun t ht => h t (.tail _ ht))
        (column + t.lexeme.toList.length + 1)
      have hspace : IsDelimiter ' ' := .inl rfl
      rw [spaced_cons_cons, (scan_delimited hspace halone).2, scan_blank (by decide), hus]
      exact ⟨_, _, rfl, .cons ⟨rfl, rfl, trivial⟩ hall⟩

/-- The comparison of texts whose tokens stand in any columns. -/
def Comparison.anywhere (ending ending' : Ending) : Comparison where
  columns _ _ := True
  names _ := True
  strict := True
  common := 0
  ending := ending
  ending' := ending'

theorem Comparison.same_anywhere {ending ending' : Ending}
    (he : ending.Alike (fun _ _ => True) ending') {ts us : List Token}
    (h : List.Forall₂ (Token.Alike fun _ _ => True) ts us) :
    (anywhere ending ending').Same ts us := by
  induction h with
  | nil => exact .ended rfl he
  | cons ht _ ih => exact .cons ht (fun _ _ => trivial) ih

section
variable {V : Type} {alg : Algebra V} {text text' : Tokens}

/-- A text has the same value, or fails for the same reason, wherever its tokens stand. -/
theorem Tokens.read_anywhere (he : text.ending.Alike (fun _ _ => True) text'.ending)
    (hts : List.Forall₂ (Token.Alike fun _ _ => True) text.tokens text'.tokens) :
    (∀ v, text.read alg = .ok v → text'.read alg = .ok v) ∧
      ∀ e, text.read alg = .error e → ∃ column, text'.read alg = .error (e.inColumn column) := by
  have hagrees := Tokens.reading_agrees (.refl _ alg) rfl rfl (Comparison.same_anywhere he hts)
  rw [Tokens.read_eq, Tokens.read_eq]
  generalize text.reading alg = r at hagrees ⊢
  generalize text'.reading alg = r' at hagrees ⊢
  cases hagrees with
  | beyond h => exact absurd h (Nat.not_lt_zero _)
  | meaning hs => exact absurd trivial hs
  | done hv =>
    subst hv
    refine ⟨fun v h => h, fun e h => ?_⟩
    cases h
  | failed he =>
    obtain ⟨column, rfl, -⟩ := he
    refine ⟨fun v h => ?_, fun e h => ?_⟩
    · cases h
    · cases h
      exact ⟨column, rfl⟩

/-- The entries of a text are its tokens and one ending, whatever the text. -/
theorem Tokens.entries_eq (text : Tokens) : ∃ init last, text.entries = init ++ [last] ∧
    (last.name = "EndOfFile" ∨ last.name = "Error") ∧
    ∀ entry ∈ init, entry.name ≠ "EndOfFile" ∧ entry.name ≠ "Error" := by
  refine ⟨text.tokens.map Token.entry, text.ending.entry, rfl, ?_, ?_⟩
  · cases text.ending with
    | endOfText => exact .inl rfl
    | fault => exact .inr rfl
  · intro entry hentry
    obtain ⟨t, -, rfl⟩ := List.mem_map.mp hentry
    exact t.kind.name_ne

end

/-- A number with at most one point is a numeral, the longest at its place. -/
theorem Longest.literal {lexeme cs : List Char} (h : Longest .number lexeme cs)
    (hp : ¬ TwoPoints lexeme) : IsLiteral lexeme ∧
      ∀ other, IsLiteral other → other <+: cs → other.length ≤ lexeme.length :=
  ⟨IsNumber.isLiteral h.isLexeme hp, fun other ho hs => h.longest .number other ho.isNumber hs⟩

theorem tokenize_lt (s : String) :
    ∀ c ∈ s.toList.take ((tokenize s).ending.column - 1), c.toNat < 128 := by
  intro c hc
  obtain ⟨k, hk, hget⟩ := List.mem_take_iff_getElem.mp hc
  rw [Nat.lt_min] at hk
  exact (tokenize_tiles s).lt k c (Nat.zero_le k) (by omega) (by rw [← hget]; simp [hk.2])

/-- A text without a fault is as many bytes long as its last column says. -/
theorem column_eq_of_endOfText {s : String} {column : Nat}
    (h : (tokenize s).ending = .endOfText column) : column = s.utf8ByteSize + 1 := by
  have hplaced := (tokenize_tiles s).ending_placed
  have hlt := tokenize_lt s
  rw [h] at hplaced hlt
  obtain ⟨hcolumn, -⟩ := hplaced
  have htake : s.toList.take ((Ending.endOfText column).column - 1) = s.toList :=
    List.take_of_length_le (by simp [Ending.column, hcolumn])
  rw [htake] at hlt
  have hsize := utf8ByteSize_of_lt hlt
  rw [String.ofList_toList] at hsize
  rw [hcolumn, hsize]

/-- A text is covered by its tokens, the longest at their places, with blanks between them. Up to
the ending it is ASCII, so that columns count bytes. The lexemes with a space between any two have
the same tokens, and the same value or the same kind of failure. A number with two points is the one
token that is no numeral. -/
theorem tokenize_covers {R : Type} [Numeric R] (vars : Variables R) (s : String) :
    (∃ init last, (tokenize s).entries = init ++ [last] ∧
      (last.name = "EndOfFile" ∨ last.name = "Error") ∧
      ∀ entry ∈ init, entry.name ≠ "EndOfFile" ∧ entry.name ≠ "Error") ∧
    (∀ before t after, (tokenize s).tokens = before ++ t :: after →
      t.Placed s.toList (stop 0 before) ∧
      (t.kind = .number → ¬ TwoPoints t.lexeme.toList → IsLiteral t.lexeme.toList ∧
        ∀ other, IsLiteral other → other <+: s.toList.drop (t.column - 1) →
          other.length ≤ t.lexeme.toList.length)) ∧
    (tokenize s).ending.Placed s.toList (stop 0 (tokenize s).tokens) ∧
    (∀ c ∈ s.toList.take ((tokenize s).ending.column - 1), c.toNat < 128) ∧
    ∀ column, (tokenize s).ending = .endOfText column →
      column = s.utf8ByteSize + 1 ∧
      (∃ last, (tokenize (spaced (tokenize s).tokens)).ending = .endOfText last) ∧
      List.Forall₂ (fun t u => u.kind = t.kind ∧ u.lexeme = t.lexeme) (tokenize s).tokens
        (tokenize (spaced (tokenize s).tokens)).tokens ∧
      (∀ v, evaluate vars s = .ok v → evaluate vars (spaced (tokenize s).tokens) = .ok v) ∧
      ∀ e, evaluate vars s = .error e → ∃ e',
        evaluate vars (spaced (tokenize s).tokens) = .error e' ∧ e'.kind = e.kind := by
  refine ⟨(tokenize s).entries_eq, fun before t after hts => ?_,
    (tokenize_tiles s).ending_placed, tokenize_lt s, fun column hend => ?_⟩
  · have hplaced := (tokenize_tiles s).token_placed before t after hts
    refine ⟨hplaced, fun hk hp => ?_⟩
    have hlongest := hplaced.longest
    rw [hk] at hlongest
    exact hlongest.literal hp
  · obtain ⟨us, last, hscan, hall⟩ := scan_spaced (tokenize s).tokens (tokenize_isLexeme s) 1
    have hspaced : tokenize (spaced (tokenize s).tokens) = ⟨us, .endOfText last⟩ := hscan
    have he : (tokenize s).ending.Alike (fun _ _ => True)
        (tokenize (spaced (tokenize s).tokens)).ending := by
      rw [hend, hspaced]
      exact .endOfText trivial
    have hts : List.Forall₂ (Token.Alike fun _ _ => True) (tokenize s).tokens
        (tokenize (spaced (tokenize s).tokens)).tokens := by
      rw [hspaced]
      exact hall
    have hread := @Tokens.read_anywhere R (numbers vars) _ _ he hts
    refine ⟨column_eq_of_endOfText hend, ⟨last, by rw [hspaced]⟩,
      hts.imp fun _ _ h => ⟨h.kind, h.lexeme⟩, hread.1, fun e h => ?_⟩
    obtain ⟨column', h'⟩ := hread.2 e h
    exact ⟨_, h', e.inColumn_kind column'⟩

/-- Of a text with two points the whole is taken, although the longest numeral there ends before the
second point, where it ends if a digit stands before the first. -/
theorem tokenize_two_points :
    (tokenize ".5.5").tokens = [⟨.number, ".5.5", 1⟩] ∧ ¬ IsLiteral ".5.5".toList ∧
    IsLiteral ".5".toList ∧ ".5".toList <+: ".5.5".toList ∧
    (tokenize "1.5.5").tokens = [⟨.number, "1.5", 1⟩, ⟨.number, ".5", 4⟩] := by
  have hpoint : scan 1 ['.', '5', '.', '5'] = ⟨[⟨.number, ".5.5", 1⟩], .endOfText 5⟩ := by
    have hm : munch '.' ['5', '.', '5'] = .ok (.number, 3) := rfl
    rw [scan_token (by decide) hm, List.drop_succ_cons, List.drop_succ_cons, List.drop_succ_cons,
      List.drop_zero, scan_nil]
    rfl
  have hdigit : scan 1 ['1', '.', '5', '.', '5'] =
      ⟨[⟨.number, "1.5", 1⟩, ⟨.number, ".5", 4⟩], .endOfText 6⟩ := by
    have hm : munch '1' ['.', '5', '.', '5'] = .ok (.number, 2) := rfl
    have hm' : munch '.' ['5'] = .ok (.number, 1) := rfl
    rw [scan_token (by decide) hm, List.drop_succ_cons, List.drop_succ_cons, List.drop_zero,
      scan_token (by decide) hm', List.drop_succ_cons, List.drop_zero, scan_nil]
    rfl
  refine ⟨congrArg Tokens.tokens hpoint, ?_, ?_, ⟨['.', '5'], rfl⟩, congrArg Tokens.tokens hdigit⟩
  · exact TwoPoints.not_isLiteral ⟨['5'], ['5'], rfl, by decide, by decide⟩
  · exact .inr ⟨['5'], [], rfl, by decide, by decide, .inl rfl⟩

end QuantumOps.Expression
