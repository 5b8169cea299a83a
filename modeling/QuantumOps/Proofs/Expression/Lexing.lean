import QuantumOps.Proofs.Expression.Grammar
import QuantumOps.Expression.Lexer

/-! How the tokens of a text depend on the texts it is put together from. No token reaches past a
blank, a parenthesis or a comma, so that a text followed by one of them is taken apart as it is
alone; and where a text starts changes the columns of its tokens only. -/
namespace QuantumOps.Expression

/-- A character that no token before it reaches. -/
def IsDelimiter (d : Char) : Prop := d = ' ' ∨ d = '(' ∨ d = ')' ∨ d = ','

/-- A character that neither a name or number nor a doubled star goes on with. -/
structure Divides (d : Char) : Prop where
  not_isNameChar : isNameChar d = false
  ne_point : d ≠ '.'
  ne_sign : d ≠ '+' ∧ d ≠ '-'
  ne_star : d ≠ '*'

theorem IsDelimiter.divides {d : Char} (h : IsDelimiter d) : Divides d := by
  rcases h with rfl | rfl | rfl | rfl <;> exact ⟨by decide, by decide, by decide, by decide⟩

theorem Divides.not_isDigit {d : Char} (h : Divides d) : d.isDigit = false := by
  have hname := h.not_isNameChar
  simp only [isNameChar, Char.isAlphanum, Bool.or_eq_false_iff] at hname
  exact hname.1.2

theorem Divides.not_exponent {d : Char} (h : Divides d) : ¬ (d = 'e' ∨ d = 'E') := by
  rintro (rfl | rfl) <;> exact absurd h.not_isNameChar (by decide)

section
variable {d : Char} {us vs : List Char}

theorem takeWhile_delimited {p : Char → Bool} (hd : p d = false) :
    (us ++ d :: vs).takeWhile p = us.takeWhile p := by
  induction us with
  | nil => simp [hd]
  | cons u us ih => simp only [List.cons_append, List.takeWhile_cons, ih]

theorem digitRun_delimited (hd : Divides d) : digitRun (us ++ d :: vs) = digitRun us := by
  rw [digitRun, takeWhile_delimited hd.not_isDigit, digitRun]

theorem digitRun_le (us : List Char) : digitRun us ≤ us.length :=
  (List.takeWhile_sublist _).length_le

theorem fractionLength_delimited (hd : Divides d) :
    fractionLength (us ++ d :: vs) = fractionLength us := by
  cases us with
  | nil => simp [fractionLength, hd.ne_point]
  | cons u us =>
    simp only [List.cons_append]
    unfold fractionLength
    split
    · rename_i h
      cases h
      simp [digitRun_delimited hd]
    · rename_i h
      split
      · rename_i h'
        cases h'
        exact (h _ rfl).elim
      · rfl

theorem fractionLength_le (us : List Char) : fractionLength us ≤ us.length := by
  unfold fractionLength
  split
  · have := digitRun_le ‹_›
    simp only [List.length_cons]
    omega
  · omega

theorem signLength_delimited (hd : Divides d) : signLength (us ++ d :: vs) = signLength us := by
  cases us with
  | nil => simp [signLength, hd.ne_sign]
  | cons u us =>
    simp only [List.cons_append]
    unfold signLength
    grind

theorem signLength_le (us : List Char) : signLength us ≤ us.length := by
  unfold signLength
  split <;> simp

theorem exponentLength_delimited (hd : Divides d) :
    exponentLength (us ++ d :: vs) = exponentLength us := by
  cases us with
  | nil => simp [exponentLength, hd.not_exponent]
  | cons u us =>
    have hdrop : (us ++ d :: vs).drop (signLength us) = us.drop (signLength us) ++ d :: vs :=
      List.drop_append_of_le_length (signLength_le us)
    simp only [List.cons_append, exponentLength, signLength_delimited hd, hdrop,
      digitRun_delimited hd]

theorem exponentLength_le {n : Nat} (h : exponentLength us = .ok n) : n ≤ us.length := by
  cases us with
  | nil =>
    cases h
    exact Nat.le_refl _
  | cons u us =>
    simp only [exponentLength] at h
    have hs := signLength_le us
    have hr := digitRun_le (us.drop (signLength us))
    rw [List.length_drop] at hr
    split at h
    · split at h
      · cases h
      · cases h
        simp only [List.length_cons]
        omega
    · cases h
      exact Nat.zero_le _

theorem numberLength_delimited (hd : Divides d) :
    numberLength (us ++ d :: vs) = numberLength us := by
  have hw := digitRun_le us
  have hdrop : (us ++ d :: vs).drop (digitRun us) = us.drop (digitRun us) ++ d :: vs :=
    List.drop_append_of_le_length hw
  have hf := fractionLength_le (us.drop (digitRun us))
  rw [List.length_drop] at hf
  have hdrop' : (us ++ d :: vs).drop (digitRun us + fractionLength (us.drop (digitRun us))) =
      us.drop (digitRun us + fractionLength (us.drop (digitRun us))) ++ d :: vs :=
    List.drop_append_of_le_length (by omega)
  simp only [numberLength, digitRun_delimited hd, hdrop, fractionLength_delimited hd, hdrop',
    exponentLength_delimited hd]

theorem numberLength_le {n : Nat} (h : numberLength us = .ok n) : n ≤ us.length := by
  have hw := digitRun_le us
  have hf := fractionLength_le (us.drop (digitRun us))
  rw [List.length_drop] at hf
  simp only [numberLength] at h
  cases he : exponentLength (us.drop (digitRun us + fractionLength (us.drop (digitRun us)))) with
  | error e => simp [he, Except.map] at h
  | ok m =>
    have hm := exponentLength_le he
    rw [List.length_drop] at hm
    simp only [he, Except.map, Except.ok.injEq] at h
    omega

/-- A token ends before a delimiter just as at the end of the text. -/
theorem munch_delimited (c : Char) (hd : Divides d) : munch c (us ++ d :: vs) = munch c us := by
  have hstar : (us ++ d :: vs).head? = some '*' ↔ us.head? = some '*' := by
    cases us with
    | nil => simp [hd.ne_star]
    | cons u us => simp
  have hdigit : (us ++ d :: vs).head?.any Char.isDigit = us.head?.any Char.isDigit := by
    cases us with
    | nil => simp [hd.not_isDigit]
    | cons u us => simp
  unfold munch
  simp only [hstar, hdigit, numberLength_delimited hd, takeWhile_delimited hd.not_isNameChar]

theorem munch_le {c : Char} {kind : Token.Kind} {n : Nat} (h : munch c us = .ok (kind, n)) :
    n ≤ us.length := by
  unfold munch at h
  split at h
  all_goals try (cases h; exact Nat.zero_le _)
  · split at h
    · rename_i hs
      cases h
      cases us with
      | nil => cases hs
      | cons u us => simp
    · cases h
      exact Nat.zero_le _
  · split at h
    · cases hn : numberLength us with
      | error e => simp [hn, Except.map] at h
      | ok m =>
        simp only [hn, Except.map, Except.ok.injEq, Prod.mk.injEq] at h
        exact h.2 ▸ numberLength_le hn
    · split at h
      · cases h
        exact (List.takeWhile_sublist _).length_le
      · cases h

end

/-- Tokens before a text that is taken apart already. -/
def Tokens.prepend (ts : List Token) (text : Tokens) : Tokens := ⟨ts ++ text.tokens, text.ending⟩

section
variable {d : Char} {us vs : List Char}

theorem scan_nil (column : Nat) : scan column [] = ⟨[], .endOfText column⟩ := by
  rw [scan]

theorem scan_blank {c : Char} (hc : isBlank c) (column : Nat) (cs : List Char) :
    scan column (c :: cs) = scan (column + 1) cs := by
  rw [scan, if_pos hc]

theorem scan_token {c : Char} {cs : List Char} {kind : Token.Kind} {n : Nat}
    (hc : isBlank c = false) (hm : munch c cs = .ok (kind, n)) (column : Nat) :
    scan column (c :: cs) = (scan (column + 1 + n) (cs.drop n)).prepend
      [⟨kind, String.ofList (c :: cs.take n), column⟩] := by
  rw [scan, if_neg (by simp [hc]), hm]
  rfl

theorem scan_fault {c : Char} {cs : List Char} {cause : LexicalFault} (hc : isBlank c = false)
    (hm : munch c cs = .error cause) (column : Nat) :
    scan column (c :: cs) = ⟨[], .fault cause column⟩ := by
  rw [scan, if_neg (by simp [hc]), hm]

/-- A text that ends well is taken apart before a delimiter as it is alone, and ends just before the
delimiter. -/
theorem scan_delimited (hd : IsDelimiter d) {column last : Nat} {ts : List Token}
    (h : scan column us = ⟨ts, .endOfText last⟩) :
    last = column + us.length ∧
      scan column (us ++ d :: vs) = (scan (column + us.length) (d :: vs)).prepend ts := by
  induction hn : us.length using Nat.strongRecOn generalizing us column ts with
  | ind n ih =>
    subst hn
    cases us with
    | nil =>
      rw [scan_nil] at h
      cases h
      exact ⟨rfl, rfl⟩
    | cons c us =>
      by_cases hc : isBlank c
      · rw [scan_blank hc] at h
        obtain ⟨hl, hs⟩ := ih us.length (by simp) h rfl
        rw [List.cons_append, scan_blank hc, hs, List.length_cons]
        refine ⟨by omega, ?_⟩
        rw [Nat.add_assoc, Nat.add_comm 1]
      · have hc : isBlank c = false := by simpa using hc
        cases hm : munch c us with
        | error cause =>
          rw [scan_fault hc hm] at h
          cases h
        | ok p =>
          obtain ⟨kind, n⟩ := p
          have hle := munch_le hm
          rw [scan_token hc hm] at h
          cases hr : scan (column + 1 + n) (us.drop n) with
          | mk ts' ending =>
            rw [hr] at h
            cases h
            have hlen : (us.drop n).length = us.length - n := List.length_drop
            obtain ⟨hl, hs⟩ := ih (us.drop n).length (by simp only [List.length_cons]; omega) hr rfl
            have hm' : munch c (us ++ d :: vs) = .ok (kind, n) := by
              rw [munch_delimited c hd.divides, hm]
            have hcol : column + 1 + n + (us.drop n).length = column + (c :: us).length := by
              simp only [List.length_cons]
              omega
            rw [List.cons_append, scan_token hc hm', List.drop_append_of_le_length hle, hs,
              List.take_append_of_le_length hle, hcol]
            exact ⟨by omega, rfl⟩

end

/-- The token at another place. -/
def Token.moved (f : Nat → Nat) (t : Token) : Token := { t with column := f t.column }

@[simp] theorem Token.moved_lexeme (f : Nat → Nat) (t : Token) :
    (t.moved f).lexeme = t.lexeme := rfl

def Ending.moved (f : Nat → Nat) : Ending → Ending
  | endOfText column => endOfText (f column)
  | fault cause column => fault cause (f column)

def Tokens.moved (f : Nat → Nat) (text : Tokens) : Tokens :=
  ⟨text.tokens.map (Token.moved f), text.ending.moved f⟩

/-- Where a text starts changes nothing but columns. -/
theorem scan_moved (shift column : Nat) (cs : List Char) :
    scan (column + shift) cs = (scan column cs).moved (· + shift) := by
  induction hn : cs.length using Nat.strongRecOn generalizing cs column with
  | ind n ih =>
    subst hn
    cases cs with
    | nil => rw [scan_nil, scan_nil]; rfl
    | cons c cs =>
      by_cases hc : isBlank c
      · rw [scan_blank hc, scan_blank hc, Nat.add_right_comm]
        exact ih cs.length (by simp) _ _ rfl
      · have hc : isBlank c = false := by simpa using hc
        cases hm : munch c cs with
        | error cause =>
          rw [scan_fault hc hm, scan_fault hc hm]
          rfl
        | ok p =>
          obtain ⟨kind, n⟩ := p
          have hlt : (cs.drop n).length < (c :: cs).length := by
            simp only [List.length_drop, List.length_cons]
            omega
          have hr := ih (cs.drop n).length hlt (column + 1 + n) (cs.drop n) rfl
          have hcol : column + shift + 1 + n = column + 1 + n + shift := by omega
          rw [scan_token hc hm, scan_token hc hm, hcol, hr]
          rfl

mutual

theorem Derives.moved (f : Nat → Nat) {p : Phrase} {ts : List Token} {t : Tree} :
    Derives p ts t → Derives p (ts.map (Token.moved f)) t
  | .number h => .number (t := .moved f _) h
  | .name h => .name (t := .moved f _) h
  | .emptyCall hf ho hc => .emptyCall (f := .moved f _) (o := .moved f _) (c := .moved f _) hf ho hc
  | .call hf ho hargs hc => by
    have h := Derives.call (f := .moved f _) (o := .moved f _) (c := .moved f _) hf ho
      (hargs.moved f) hc
    rw [Token.moved_lexeme] at h
    simpa using h
  | .group ho ht hc => by
    simpa using Derives.group (o := .moved f _) (c := .moved f _) ho (ht.moved f) hc
  | .primary ht => .primary (ht.moved f)
  | .pow hl ho hr => by
    simpa using Derives.pow (o := .moved f _) (hl.moved f) ho (hr.moved f)
  | .power ht => .power (ht.moved f)
  | .pos ho ht => .pos (o := .moved f _) ho (ht.moved f)
  | .neg ho ht => .neg (o := .moved f _) ho (ht.moved f)
  | .unary ht => .unary (ht.moved f)
  | .mul hl ho hr => by
    simpa using Derives.mul (o := .moved f _) (hl.moved f) ho (hr.moved f)
  | .div hl ho hr => by
    simpa using Derives.div (o := .moved f _) (hl.moved f) ho (hr.moved f)
  | .product ht => .product (ht.moved f)
  | .add hl ho hr => by
    simpa using Derives.add (o := .moved f _) (hl.moved f) ho (hr.moved f)
  | .sub hl ho hr => by
    simpa using Derives.sub (o := .moved f _) (hl.moved f) ho (hr.moved f)

theorem DerivesArgs.moved (f : Nat → Nat) {ts : List Token} {args : List Tree} :
    DerivesArgs ts args → DerivesArgs (ts.map (Token.moved f)) args
  | .last ht => .last (ht.moved f)
  | .cons ht ho hargs => by
    simpa using DerivesArgs.cons (o := .moved f _) (ht.moved f) ho (hargs.moved f)

end

end QuantumOps.Expression
