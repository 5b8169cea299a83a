import QuantumOps.Proofs.Expression.Lexemes

/-! Where a token starts, the longest one is taken, and where none is taken the text is at fault. The
first character tells symbols, names and numbers apart; only the length of a number takes an
argument. -/
namespace QuantumOps.Expression

section
variable {c : Char} {cs ds fr ex : List Char}

/-- The characters that are tokens, or start one, whatever follows. -/
def symbols : List Char := ['(', ')', ',', '+', '-', '/', '^', '*']

theorem munch_of_not_mem_symbols {rest : List Char} (h : c ∉ symbols) :
    munch c rest =
      if c.isDigit || (c = '.' && rest.head?.any Char.isDigit) then
        (numberLength rest).map (Token.Kind.number, ·)
      else if isNameStart c then .ok (.identifier, (rest.takeWhile isNameChar).length)
      else .error .unexpectedCharacter := by
  unfold munch
  split
  all_goals first
    | rfl
    | exact absurd (by decide) h

/-- No number and no name starts with a symbol. -/
theorem not_starts_of_mem_symbols (h : c ∈ symbols) :
    c.isDigit = false ∧ c ≠ '.' ∧ isNameStart c = false := by
  simp only [symbols, List.mem_cons, List.not_mem_nil, or_false] at h
  rcases h with rfl | rfl | rfl | rfl | rfl | rfl | rfl | rfl <;> decide

theorem StartsNumber.not_mem_symbols {rest : List Char} (h : StartsNumber c rest) :
    c ∉ symbols := by
  intro hc
  obtain ⟨hdigit, hpoint, -⟩ := not_starts_of_mem_symbols hc
  rcases h with h | ⟨h, -⟩
  · rw [hdigit] at h
    cases h
  · exact hpoint h

theorem not_isDigit_of_isNameStart (h : isNameStart c) : c.isDigit = false := by
  rw [Bool.eq_false_iff]
  intro hd
  simp only [isNameStart, Char.isAlpha, Char.isUpper, Char.isLower, Char.isDigit, ge_iff_le,
    Bool.or_eq_true, Bool.and_eq_true, decide_eq_true_eq, UInt32.le_iff_toNat_le] at h hd
  rcases h with (h | h) | rfl
  · simp at h hd
    omega
  · simp at h hd
    omega
  · simp at hd

theorem munch_number {rest : List Char} (h : StartsNumber c rest) :
    munch c rest = (numberLength rest).map (Token.Kind.number, ·) := by
  rw [munch_of_not_mem_symbols h.not_mem_symbols, if_pos]
  rcases h with h | ⟨h, h'⟩
  · rw [h]
    rfl
  · simp [h, h']

theorem munch_identifier {rest : List Char} (h : isNameStart c) :
    munch c rest = .ok (.identifier, (rest.takeWhile isNameChar).length) := by
  have hmem : c ∉ symbols := by
    intro hc
    rw [(not_starts_of_mem_symbols hc).2.2] at h
    cases h
  have hpoint : c ≠ '.' := by
    rintro rfl
    cases h
  rw [munch_of_not_mem_symbols hmem, if_neg, if_pos h]
  simp [not_isDigit_of_isNameStart h, hpoint]

/-- A token that stands alone is taken as a whole, as what it is. -/
theorem IsLexeme.munch_eq {kind : Token.Kind} {rest : List Char} (h : IsLexeme kind (c :: rest)) :
    munch c rest = .ok (kind, rest.length) := by
  cases kind with
  | number =>
    obtain ⟨hc, hk⟩ := isNumber_cons.mp h
    rw [munch_number hc, hk.numberLength_eq]
    rfl
  | identifier =>
    obtain ⟨d, ds, hcons, hd, hds⟩ := h
    cases hcons
    rw [munch_identifier hd, List.takeWhile_eq_self_iff.mpr hds]
  | caret =>
    rcases h with h | h
    · cases h
      rfl
    · cases h
      rfl
  | _ =>
    cases h
    rfl

/-- Whatever token starts at a place, one at least as long is taken there. -/
theorem IsLexeme.length_le {kind kind' : Token.Kind} {n : Nat} {rest : List Char}
    (hm : munch c (rest ++ cs) = .ok (kind, n)) (h : IsLexeme kind' (c :: rest)) :
    rest.length ≤ n := by
  cases kind' with
  | number =>
    obtain ⟨hc, hk⟩ := isNumber_cons.mp h
    rw [munch_number (hc.append cs)] at hm
    cases hn : numberLength (rest ++ cs) with
    | error cause =>
      rw [hn] at hm
      cases hm
    | ok m =>
      rw [hn] at hm
      cases hm
      exact hk.length_le hn
  | identifier =>
    obtain ⟨d, ds, hcons, hd, hds⟩ := h
    cases hcons
    rw [munch_identifier hd, List.takeWhile_append_of_pos hds, List.length_append] at hm
    cases hm
    exact Nat.le_add_right _ _
  | caret =>
    rcases h with h | h
    · cases h
      exact Nat.zero_le _
    · cases h
      cases hm
      exact Nat.le_refl _
  | _ =>
    cases h
    exact Nat.zero_le _

/-- What is taken is a token of the kind. -/
theorem isLexeme_of_munch {kind : Token.Kind} {n : Nat} {rest : List Char}
    (h : munch c rest = .ok (kind, n)) : IsLexeme kind (c :: rest.take n) := by
  unfold munch at h
  split at h
  all_goals try (cases h; rfl)
  · cases h
    exact Or.inl rfl
  · split at h
    · rename_i hstar
      cases h
      cases rest with
      | nil => cases hstar
      | cons d rest =>
        cases hstar
        exact Or.inr rfl
    · cases h
      rfl
  · split at h
    · rename_i hc
      cases hn : numberLength rest with
      | error cause =>
        rw [hn] at h
        cases h
      | ok m =>
        rw [hn] at h
        cases h
        refine isNumber_cons.mpr ⟨?_, continues_take hn⟩
        simp only [Bool.or_eq_true, Bool.and_eq_true, decide_eq_true_eq] at hc
        rcases hc with hc | ⟨hpoint, hdigit⟩
        · exact .inl hc
        · -- the digit after the point is taken
          cases rest with
          | nil => cases hdigit
          | cons d rest =>
            have hd : d.isDigit := hdigit
            have hpos : 0 < digitRun (d :: rest) := by simp [digitRun, hd]
            have hge := numberLength_ge hn
            obtain ⟨k, rfl⟩ : ∃ k, n = k + 1 := ⟨n - 1, by omega⟩
            exact .inr ⟨hpoint, hd⟩
    · split at h
      · rename_i hc
        cases h
        exact ⟨c, _, rfl, hc, fun d hd => mem_take_takeWhile hd⟩
      · cases h

theorem longest_of_munch {kind : Token.Kind} {n : Nat} {rest : List Char}
    (h : munch c rest = .ok (kind, n)) : Longest kind (c :: rest.take n) (c :: rest) := by
  refine ⟨isLexeme_of_munch h, ⟨rest.drop n, by simp⟩, ?_⟩
  rintro kind' other hother ⟨after, hafter⟩
  obtain ⟨d, ds, rfl⟩ := hother.exists_cons
  cases hafter
  have hle := hother.length_le h
  have hn := munch_le h
  rw [List.length_cons, List.length_cons, List.length_take]
  omega

theorem LacksExponent.munch_eq {rest : List Char} (h : LacksExponent (c :: rest)) :
    munch c rest = .error .missingExponentDigits := by
  obtain ⟨number, e, after, hcs, hnumber, hplain, he, hno⟩ := h
  obtain ⟨d, ds, rfl⟩ : ∃ d ds, number = d :: ds := @IsLexeme.exists_cons .number number hnumber
  rw [List.cons_append, List.cons.injEq] at hcs
  obtain ⟨rfl, rfl⟩ := hcs
  obtain ⟨hstart, hk⟩ := isNumber_cons.mp hnumber
  obtain ⟨ds, fr, rfl, hd, hf⟩ := hk.mantissa fun d hd => hplain d (.tail _ hd)
  rw [munch_number (hstart.append _), List.append_assoc,
    numberLength_mantissa hd hf (digitRun_cons_of_not he.not_isDigit) (fractionLength_letter he),
    exponentLength_of_letter he hno]
  rfl

/-- Every token starts with a symbol, a letter or an underscore, or as a number does. -/
theorem IsLexeme.head {kind : Token.Kind} {rest : List Char} (h : IsLexeme kind (c :: rest)) :
    c ∈ symbols ∨ isNameStart c ∨ StartsNumber c rest := by
  cases kind with
  | number => exact .inr (.inr (isNumber_cons.mp h).1)
  | identifier =>
    obtain ⟨d, ds, hcons, hd, -⟩ := h
    cases hcons
    exact .inr (.inl hd)
  | caret =>
    rcases h with h | h
    · cases h
      exact .inl (by decide)
    · cases h
      exact .inl (by decide)
  | _ =>
    cases h
    exact .inl (by decide)

theorem munch_eq_error {cause : LexicalFault} {rest : List Char} (hs : ¬ StartsNumber c rest)
    (h : munch c rest = .error cause) :
    cause = .unexpectedCharacter ∧ c ∉ symbols ∧ ¬ isNameStart c := by
  have hc : c ∉ symbols := by
    intro hc
    simp only [symbols, List.mem_cons, List.not_mem_nil, or_false] at hc
    rcases hc with rfl | rfl | rfl | rfl | rfl | rfl | rfl | rfl
    all_goals simp only [munch, reduceCtorEq] at h
    split at h
    · cases h
    · cases h
  rw [munch_of_not_mem_symbols hc, if_neg (by simpa [StartsNumber] using hs)] at h
  split at h
  · cases h
  · rename_i hname
    cases h
    exact ⟨rfl, hc, hname⟩

/-- Where nothing is taken, the text is at fault for the cause given. -/
theorem faulty_of_munch {cause : LexicalFault} {rest : List Char}
    (h : munch c rest = .error cause) : Faulty cause (c :: rest) := by
  by_cases hs : StartsNumber c rest
  · rw [munch_number hs] at h
    obtain ⟨ds, fr, after, rfl, hd, hf, hn⟩ := numberLength_eq rest
    rw [hn] at h
    cases he : exponentLength after with
    | ok m =>
      rw [he] at h
      cases h
    | error cause =>
      rw [he] at h
      cases h
      obtain ⟨rfl, e, rest, rfl, hletter, hno⟩ := exponentLength_eq_error he
      have hstart := hs.mantissa hf (digitRun_cons_of_not hletter.not_isDigit)
      have hcont : Continues (ds ++ fr) := ⟨ds, fr, [], by rw [List.append_nil], hd, hf, .inl rfl⟩
      refine ⟨c :: (ds ++ fr), e, rest, by simp, isNumber_cons.mpr ⟨hstart, hcont⟩, ?_, hletter, hno⟩
      intro d hmem
      rw [List.mem_cons, List.mem_append] at hmem
      rcases hmem with rfl | hmem | hmem
      · exact hs.not_isExponentLetter
      · exact hd.not_isExponentLetter d hmem
      · exact hf.not_isExponentLetter d hmem
  · obtain ⟨rfl, hsymbol, hname⟩ := munch_eq_error hs h
    rintro kind lexeme hlexeme ⟨after, hafter⟩
    obtain ⟨d, ds, rfl⟩ := hlexeme.exists_cons
    cases hafter
    rcases hlexeme.head with hd | hd | hd
    · exact hsymbol hd
    · exact hname hd
    · exact hs (hd.append after)

end

/-- Nothing but blanks starts with a blank. -/
theorem not_starts_of_isBlank {c : Char} (h : isBlank c) :
    c ∉ symbols ∧ isNameStart c = false ∧ c.isDigit = false ∧ c ≠ '.' := by
  simp only [isBlank, Bool.or_eq_true, Bool.and_eq_true, decide_eq_true_eq] at h
  rcases h with rfl | ⟨h, h'⟩
  · decide
  · have hc : c = Char.ofNat c.toNat := (Char.ofNat_toNat c).symm
    have hcases : c.toNat = 9 ∨ c.toNat = 10 ∨ c.toNat = 11 ∨ c.toNat = 12 ∨ c.toNat = 13 := by
      omega
    rcases hcases with h | h | h | h | h <;> rw [hc, h] <;> decide

theorem IsLexeme.not_isBlank {kind : Token.Kind} {c : Char} {rest : List Char}
    (h : IsLexeme kind (c :: rest)) : isBlank c = false := by
  rw [Bool.eq_false_iff]
  intro hb
  obtain ⟨hsymbol, hname, hdigit, hpoint⟩ := not_starts_of_isBlank hb
  rcases h.head with h | h | h | ⟨h, -⟩
  · exact hsymbol h
  · rw [hname] at h
    cases h
  · rw [hdigit] at h
    cases h
  · exact hpoint h

/-- A token that stands alone is taken as what it is. -/
theorem IsLexeme.scan {kind : Token.Kind} {lexeme : List Char} (h : IsLexeme kind lexeme)
    (column : Nat) : scan column lexeme =
      ⟨[⟨kind, String.ofList lexeme, column⟩], .endOfText (column + lexeme.length)⟩ := by
  obtain ⟨c, rest, rfl⟩ := h.exists_cons
  rw [scan_token h.not_isBlank h.munch_eq, List.drop_length, List.take_length, scan_nil,
    List.length_cons, Nat.add_right_comm, Nat.add_assoc]
  rfl

end QuantumOps.Expression
