import Mathlib
import QuantumOps.Proofs.Expression.Lexing

/-! The classes that tokens belong to, apart from how a text is taken apart: which characters make a
token of each kind, and which a numeral. Where a token starts, `munch` takes the longest one. A
number may have a point before its first digit and another one after it, which no numeral has. -/
namespace QuantumOps.Expression

/-- Digits alone, or nothing. -/
def Digits (cs : List Char) : Prop := ∀ c ∈ cs, c.isDigit

instance (cs : List Char) : Decidable (Digits cs) :=
  List.decidableBAll (fun c : Char => c.isDigit = true) cs

/-- A point with digits after it, or nothing. -/
def Fraction (cs : List Char) : Prop := cs = [] ∨ ∃ ds, cs = '.' :: ds ∧ Digits ds

def IsExponentLetter (c : Char) : Prop := c = 'e' ∨ c = 'E'

/-- A letter, perhaps a sign, and at least one digit. -/
def Exponent (cs : List Char) : Prop :=
  ∃ c sign ds, cs = c :: (sign ++ ds) ∧ IsExponentLetter c ∧ (sign = [] ∨ sign = ['+'] ∨ sign = ['-'])
    ∧ Digits ds ∧ ds ≠ []

/-- What may stand after the first digit of a numeral: digits, a fraction and an exponent. -/
def Continues (cs : List Char) : Prop :=
  ∃ ds fr ex, cs = ds ++ (fr ++ ex) ∧ Digits ds ∧ Fraction fr ∧ (ex = [] ∨ Exponent ex)

/-- A numeral that starts with a digit. -/
def IsWhole (cs : List Char) : Prop := ∃ c rest, cs = c :: rest ∧ c.isDigit ∧ Continues rest

/-- A numeral: one that starts with a digit, or digits after a point and perhaps an exponent. -/
def IsLiteral (cs : List Char) : Prop :=
  IsWhole cs ∨ ∃ ds ex, cs = '.' :: (ds ++ ex) ∧ Digits ds ∧ ds ≠ [] ∧ (ex = [] ∨ Exponent ex)

/-- A numeral that starts with a digit, or a point before one. -/
def IsNumber (cs : List Char) : Prop := IsWhole cs ∨ ∃ rest, cs = '.' :: rest ∧ IsWhole rest

/-- A letter or an underscore, and letters, digits and underscores. -/
def IsIdentifier (cs : List Char) : Prop :=
  ∃ c rest, cs = c :: rest ∧ isNameStart c ∧ ∀ d ∈ rest, isNameChar d

/-- The characters are a token of the kind. -/
def IsLexeme : Token.Kind → List Char → Prop
  | .number, cs => IsNumber cs
  | .identifier, cs => IsIdentifier cs
  | .leftParen, cs => cs = ['(']
  | .rightParen, cs => cs = [')']
  | .comma, cs => cs = [',']
  | .plus, cs => cs = ['+']
  | .minus, cs => cs = ['-']
  | .star, cs => cs = ['*']
  | .slash, cs => cs = ['/']
  | .caret, cs => cs = ['^'] ∨ cs = ['*', '*']

/-- A number stands at the head and the letter of an exponent after it, but no exponent. -/
def LacksExponent (cs : List Char) : Prop :=
  ∃ number c rest, cs = number ++ c :: rest ∧ IsNumber number ∧ (∀ d ∈ number, ¬ IsExponentLetter d) ∧
    IsExponentLetter c ∧ ∀ ex, Exponent ex → ¬ ex <+: c :: rest

/-- The token at the head of a text: one of its kind, at least as long as any other there. -/
structure Longest (kind : Token.Kind) (lexeme cs : List Char) : Prop where
  isLexeme : IsLexeme kind lexeme
  starts : lexeme <+: cs
  longest : ∀ kind' other, IsLexeme kind' other → other <+: cs → other.length ≤ lexeme.length

/-- Why no token stands at the head of a text: there is none, or a number without the digits of its
exponent. -/
def Faulty : LexicalFault → List Char → Prop
  | .unexpectedCharacter, cs => ∀ kind lexeme, IsLexeme kind lexeme → ¬ lexeme <+: cs
  | .missingExponentDigits, cs => LacksExponent cs

section
variable {c : Char} {cs ds fr ex : List Char}

theorem digitRun_append (h : Digits ds) (cs : List Char) :
    digitRun (ds ++ cs) = ds.length + digitRun cs := by
  rw [digitRun, List.takeWhile_append_of_pos h, List.length_append, digitRun]

theorem digitRun_cons_of_not (h : ¬ c.isDigit) : digitRun (c :: cs) = 0 := by
  simp [digitRun, h]

theorem mem_take_takeWhile {p : Char → Bool} (h : c ∈ cs.take (cs.takeWhile p).length) : p c := by
  have hlen : (cs.takeWhile p ++ cs.dropWhile p).take (cs.takeWhile p).length = cs.takeWhile p :=
    List.take_left
  rw [List.takeWhile_append_dropWhile] at hlen
  rw [hlen] at h
  exact List.mem_takeWhile_imp h

theorem digits_take (cs : List Char) : Digits (cs.take (digitRun cs)) :=
  fun _ hc => mem_take_takeWhile hc

theorem IsExponentLetter.not_isDigit (h : IsExponentLetter c) : ¬ c.isDigit := by
  rcases h with rfl | rfl <;> decide

theorem Digits.not_isExponentLetter (h : Digits ds) : ∀ c ∈ ds, ¬ IsExponentLetter c :=
  fun c hc he => he.not_isDigit (h c hc)

theorem fraction_take (cs : List Char) : Fraction (cs.take (fractionLength cs)) := by
  unfold fractionLength
  split
  · rename_i rest
    rw [Nat.add_comm, List.take_succ_cons]
    exact .inr ⟨_, rfl, digits_take rest⟩
  · exact .inl rfl

theorem Fraction.not_isExponentLetter (h : Fraction fr) : ∀ c ∈ fr, ¬ IsExponentLetter c := by
  rcases h with rfl | ⟨ds, rfl, hd⟩
  · simp
  · intro c hc
    rcases List.mem_cons.mp hc with rfl | hc
    · rintro (h | h) <;> cases h
    · exact hd.not_isExponentLetter c hc

theorem fractionLength_letter (h : IsExponentLetter c) : fractionLength (c :: cs) = 0 := by
  rcases h with rfl | rfl <;> rfl

/-- The mantissa before what is no digit and no point is as long as the digits and the fraction. -/
theorem mantissa_lengths (hd : Digits ds) (hf : Fraction fr) (h : digitRun cs = 0)
    (h' : fractionLength cs = 0) :
    digitRun (ds ++ (fr ++ cs)) = ds.length ∧ fractionLength (fr ++ cs) = fr.length := by
  rcases hf with rfl | ⟨fs, rfl, hfs⟩
  · rw [digitRun_append hd, List.nil_append, h, h']
    exact ⟨rfl, rfl⟩
  · rw [digitRun_append hd, List.cons_append, digitRun_cons_of_not (by decide), fractionLength,
      digitRun_append hfs, h, List.length_cons]
    omega

theorem numberLength_mantissa (hd : Digits ds) (hf : Fraction fr) (h : digitRun cs = 0)
    (h' : fractionLength cs = 0) :
    numberLength (ds ++ (fr ++ cs)) = (exponentLength cs).map (ds.length + fr.length + ·) := by
  obtain ⟨h₁, h₂⟩ := mantissa_lengths hd hf h h'
  have hdrop : (ds ++ (fr ++ cs)).drop (ds.length + fr.length) = cs := by
    rw [← List.append_assoc, ← List.length_append, List.drop_left]
  simp only [numberLength, h₁, List.drop_left, h₂, hdrop]

/-- An exponent is taken as a whole, with the digits that follow it. -/
theorem exponentLength_append (h : Exponent ex) (cs : List Char) :
    exponentLength (ex ++ cs) = .ok (ex.length + digitRun cs) := by
  obtain ⟨c, sign, ds, rfl, hc, hs, hd, hne⟩ := h
  have hsign : signLength (sign ++ (ds ++ cs)) = sign.length := by
    rcases hs with rfl | rfl | rfl
    · obtain ⟨d, ds, rfl⟩ := List.exists_cons_of_ne_nil hne
      have hdigit : d.isDigit := hd d (.head _)
      unfold signLength
      split
      · rename_i h
        cases h
        exact absurd hdigit (by decide)
      · rename_i h
        cases h
        exact absurd hdigit (by decide)
      · rfl
    · rfl
    · rfl
  have hpos : 0 < ds.length := List.length_pos_iff.mpr hne
  rw [List.cons_append, List.append_assoc, exponentLength, hsign, List.drop_left,
    digitRun_append hd]
  have hne : ds.length + digitRun cs ≠ 0 := by omega
  simp only [if_neg hne]
  have hletter : c = 'e' ∨ c = 'E' := hc
  rw [if_pos hletter, List.length_cons, List.length_append]
  congr 1
  omega

theorem exponent_take {n : Nat} (h : exponentLength cs = .ok n) :
    cs.take n = [] ∨ Exponent (cs.take n) := by
  cases cs with
  | nil => exact .inl List.take_nil
  | cons c cs =>
    simp only [exponentLength] at h
    split at h
    · rename_i hc
      split at h
      · cases h
      · rename_i hpos
        cases h
        have hds : Digits ((cs.drop (signLength cs)).take (digitRun (cs.drop (signLength cs)))) :=
          digits_take _
        refine .inr ⟨c, cs.take (signLength cs), _, ?_, hc, ?_, hds, ?_⟩
        · rw [Nat.add_assoc, Nat.add_comm 1, List.take_succ_cons, List.take_add]
        · unfold signLength
          split
          · exact .inr (.inl rfl)
          · exact .inr (.inr rfl)
          · exact .inl rfl
        · intro he
          have hlen := congrArg List.length he
          have hle := digitRun_le (cs.drop (signLength cs))
          rw [List.length_take, List.length_nil] at hlen
          omega
    · cases h
      exact .inl rfl

/-- Where the letter of an exponent has no digits, no exponent starts. -/
theorem exponentLength_eq_error {cause : LexicalFault} (h : exponentLength cs = .error cause) :
    cause = .missingExponentDigits ∧ ∃ c rest, cs = c :: rest ∧ IsExponentLetter c ∧
      ∀ ex, Exponent ex → ¬ ex <+: c :: rest := by
  have hno : ∀ ex, Exponent ex → ¬ ex <+: cs := by
    rintro ex hex ⟨after, rfl⟩
    rw [exponentLength_append hex] at h
    cases h
  cases cs with
  | nil => cases h
  | cons c cs =>
    simp only [exponentLength] at h
    split at h
    · rename_i hc
      split at h
      · cases h
        exact ⟨rfl, c, cs, rfl, hc, hno⟩
      · cases h
    · cases h

theorem numberLength_eq (cs : List Char) : ∃ ds fr after, cs = ds ++ (fr ++ after) ∧ Digits ds ∧
    Fraction fr ∧ numberLength cs = (exponentLength after).map (ds.length + fr.length + ·) := by
  have hw := digitRun_le cs
  have hf := fractionLength_le (cs.drop (digitRun cs))
  rw [List.length_drop] at hf
  refine ⟨cs.take (digitRun cs), (cs.drop (digitRun cs)).take (fractionLength (cs.drop (digitRun cs))),
    cs.drop (digitRun cs + fractionLength (cs.drop (digitRun cs))), ?_, digits_take cs,
    fraction_take _, ?_⟩
  · rw [← List.drop_drop, List.take_append_drop, List.take_append_drop]
  · rw [List.length_take, List.length_take, List.length_drop, Nat.min_eq_left hw,
      Nat.min_eq_left hf]
    rfl

theorem continues_take {n : Nat} (h : numberLength cs = .ok n) : Continues (cs.take n) := by
  obtain ⟨ds, fr, after, rfl, hd, hf, hn⟩ := numberLength_eq cs
  rw [hn] at h
  cases he : exponentLength after with
  | error cause =>
    rw [he] at h
    cases h
  | ok m =>
    rw [he] at h
    cases h
    refine ⟨ds, fr, after.take m, ?_, hd, hf, exponent_take he⟩
    rw [← List.append_assoc, ← List.length_append, List.take_length_add_append, List.append_assoc]

theorem numberLength_ge {n : Nat} (h : numberLength cs = .ok n) :
    digitRun cs + fractionLength (cs.drop (digitRun cs)) ≤ n := by
  simp only [numberLength] at h
  cases he : exponentLength (cs.drop (digitRun cs + fractionLength (cs.drop (digitRun cs)))) with
  | error cause =>
    rw [he] at h
    cases h
  | ok m =>
    rw [he] at h
    cases h
    exact Nat.le_add_right _ _

theorem Exponent.numberLength_eq (hd : Digits ds) (hf : Fraction fr) (hex : Exponent ex)
    (cs : List Char) : numberLength (ds ++ (fr ++ (ex ++ cs))) =
      .ok (ds.length + fr.length + (ex.length + digitRun cs)) := by
  have he := exponentLength_append hex cs
  obtain ⟨c, sign, es, rfl, hc, -⟩ := hex
  rw [List.cons_append] at he ⊢
  rw [numberLength_mantissa hd hf (digitRun_cons_of_not hc.not_isDigit) (fractionLength_letter hc),
    he]
  rfl

/-- Nothing that continues a number is longer than what is taken. -/
theorem Continues.length_le {n : Nat} {ks : List Char} (hk : Continues ks)
    (h : numberLength (ks ++ cs) = .ok n) : ks.length ≤ n := by
  obtain ⟨ds, fr, ex, rfl, hd, hf, rfl | hex⟩ := hk
  · -- the last digits may go on in `cs`
    have hn := numberLength_ge h
    rw [List.append_nil, List.append_assoc, digitRun_append hd] at hn
    rcases hf with rfl | ⟨fs, rfl, hfs⟩
    · simp only [List.length_append, List.length_nil]
      omega
    · rw [List.cons_append, digitRun_cons_of_not (by decide), Nat.add_zero, List.drop_left,
        fractionLength, digitRun_append hfs] at hn
      simp only [List.length_append, List.length_cons, List.length_nil]
      omega
  · rw [List.append_assoc, List.append_assoc, hex.numberLength_eq hd hf] at h
    cases h
    simp only [List.length_append]
    omega

/-- What continues a number is taken as a whole where nothing follows it. -/
theorem Continues.numberLength_eq {ks : List Char} (hk : Continues ks) :
    numberLength ks = .ok ks.length := by
  obtain ⟨ds, fr, ex, rfl, hd, hf, rfl | hex⟩ := hk
  · rw [numberLength_mantissa hd hf rfl rfl, List.append_nil, List.length_append]
    rfl
  · have h := hex.numberLength_eq hd hf []
    rw [List.append_nil] at h
    rw [h, List.length_append, List.length_append, Nat.add_assoc]
    rfl

/-- A character at which a number starts. -/
def StartsNumber (c : Char) (rest : List Char) : Prop :=
  c.isDigit ∨ c = '.' ∧ rest.head?.any Char.isDigit

theorem isNumber_cons {rest : List Char} :
    IsNumber (c :: rest) ↔ StartsNumber c rest ∧ Continues rest := by
  constructor
  · rintro (⟨d, k, h, hd, hk⟩ | ⟨k, h, d, k', rfl, hd, hk⟩)
    · cases h
      exact ⟨.inl hd, hk⟩
    · cases h
      obtain ⟨ds, fr, ex, rfl, hds, hf, hex⟩ := hk
      refine ⟨.inr ⟨rfl, hd⟩, d :: ds, fr, ex, rfl, ?_, hf, hex⟩
      intro c hc
      rcases List.mem_cons.mp hc with rfl | hc
      · exact hd
      · exact hds c hc
  · rintro ⟨hd | ⟨rfl, hd⟩, hk⟩
    · exact .inl ⟨c, rest, rfl, hd, hk⟩
    · refine .inr ⟨rest, rfl, ?_⟩
      obtain ⟨ds, fr, ex, rfl, hds, hf, hex⟩ := hk
      cases ds with
      | cons d ds =>
        exact ⟨d, _, rfl, hds d (.head _), ds, fr, ex, rfl, fun c hc => hds c (.tail _ hc), hf, hex⟩
      | nil =>
        -- neither a fraction nor an exponent starts with a digit
        exfalso
        rcases hf with rfl | ⟨fs, rfl, -⟩
        · rcases hex with rfl | ⟨e, sign, es, rfl, he, -⟩
          · simp at hd
          · exact he.not_isDigit (by simpa using hd)
        · simp at hd

theorem StartsNumber.append {rest : List Char} (h : StartsNumber c rest) (cs : List Char) :
    StartsNumber c (rest ++ cs) := by
  rcases h with h | ⟨h, hd⟩
  · exact .inl h
  · cases rest with
    | nil => cases hd
    | cons d rest => exact .inr ⟨h, hd⟩

/-- The number before the letter of an exponent starts as it does with all that follows. -/
theorem StartsNumber.mantissa (h : StartsNumber c (ds ++ (fr ++ cs))) (hf : Fraction fr)
    (hcs : digitRun cs = 0) : StartsNumber c (ds ++ fr) := by
  rcases h with h | ⟨h, hd⟩
  · exact .inl h
  · refine .inr ⟨h, ?_⟩
    cases ds with
    | cons d ds => exact hd
    | nil =>
      exfalso
      rcases hf with rfl | ⟨fs, rfl, -⟩
      · cases cs with
        | nil => cases hd
        | cons d cs =>
          have hd : d.isDigit := hd
          simp [digitRun, hd] at hcs
      · cases hd

theorem StartsNumber.not_isExponentLetter {rest : List Char} (h : StartsNumber c rest) :
    ¬ IsExponentLetter c := by
  intro he
  rcases h with h | ⟨rfl, -⟩
  · exact he.not_isDigit h
  · rcases he with he | he <;> cases he

theorem exponentLength_of_letter (hc : IsExponentLetter c)
    (hno : ∀ ex, Exponent ex → ¬ ex <+: c :: cs) :
    exponentLength (c :: cs) = .error .missingExponentDigits := by
  cases he : exponentLength (c :: cs) with
  | error cause => rw [(exponentLength_eq_error he).1]
  | ok n =>
    exfalso
    rcases exponent_take he with h | h
    · -- the letter itself is taken
      have hletter : c = 'e' ∨ c = 'E' := hc
      simp only [exponentLength, if_pos hletter] at he
      split at he
      · cases he
      · cases he
        rw [Nat.add_assoc, Nat.add_comm 1, List.take_succ_cons] at h
        cases h
    · exact hno _ h ⟨_, List.take_append_drop n _⟩

/-- The part of a number without the letter of an exponent. -/
theorem Continues.mantissa (hk : Continues cs) (h : ∀ d ∈ cs, ¬ IsExponentLetter d) :
    ∃ ds fr, cs = ds ++ fr ∧ Digits ds ∧ Fraction fr := by
  obtain ⟨ds, fr, ex, rfl, hd, hf, rfl | ⟨e, sign, es, rfl, he, -⟩⟩ := hk
  · exact ⟨ds, fr, by rw [List.append_nil], hd, hf⟩
  · exact absurd he (h e (by simp))

theorem IsLexeme.exists_cons {kind : Token.Kind} {lexeme : List Char} (h : IsLexeme kind lexeme) :
    ∃ c rest, lexeme = c :: rest := by
  cases kind with
  | number =>
    rcases h with ⟨c, rest, rfl, -⟩ | ⟨rest, rfl, -⟩
    · exact ⟨_, _, rfl⟩
    · exact ⟨_, _, rfl⟩
  | identifier =>
    obtain ⟨c, rest, rfl, -⟩ := h
    exact ⟨_, _, rfl⟩
  | caret =>
    rcases h with rfl | rfl
    · exact ⟨_, _, rfl⟩
    · exact ⟨_, _, rfl⟩
  | _ => exact ⟨_, _, h⟩

/-- A point, digits and another point. -/
def TwoPoints (cs : List Char) : Prop :=
  ∃ ds rest, cs = '.' :: (ds ++ '.' :: rest) ∧ Digits ds ∧ ds ≠ []

theorem IsLiteral.isNumber (h : IsLiteral cs) : IsNumber cs := by
  rcases h with h | ⟨ds, ex, rfl, hd, hne, hex⟩
  · exact .inl h
  · obtain ⟨c, ds, rfl⟩ := List.exists_cons_of_ne_nil hne
    exact .inr ⟨_, rfl, c, _, rfl, hd c (.head _), ds, [], ex, rfl, fun d h => hd d (.tail _ h),
      .inl rfl, hex⟩

theorem IsNumber.isLiteral (h : IsNumber cs) (hp : ¬ TwoPoints cs) : IsLiteral cs := by
  rcases h with h | ⟨rest, rfl, c, _, rfl, hc, ds, fr, ex, rfl, hd, hf, hex⟩
  · exact .inl h
  · have hds : Digits (c :: ds) := by
      intro d hmem
      rcases List.mem_cons.mp hmem with rfl | hmem
      · exact hc
      · exact hd d hmem
    rcases hf with rfl | ⟨fs, rfl, -⟩
    · exact .inr ⟨c :: ds, ex, rfl, hds, List.cons_ne_nil _ _, hex⟩
    · exact absurd ⟨c :: ds, fs ++ ex, rfl, hds, List.cons_ne_nil _ _⟩ hp

/-- The digits of a numeral that starts with a point go as far as its exponent. -/
theorem TwoPoints.not_isLiteral (h : TwoPoints cs) : ¬ IsLiteral cs := by
  obtain ⟨ds, rest, rfl, hd, -⟩ := h
  have hpoint : ¬ '.'.isDigit := by decide
  rintro (⟨c, k, hcons, hc, -⟩ | ⟨ds', ex, hcons, hd', -, hex⟩)
  · cases hcons
    exact hpoint hc
  · rw [List.cons.injEq] at hcons
    have hruns : (ds ++ '.' :: rest).takeWhile Char.isDigit = ds := by
      rw [List.takeWhile_append_of_pos hd]
      simp [hpoint]
    rcases hex with rfl | ⟨e, sign, es, rfl, he, -⟩
    · have hmem : '.' ∈ ds' ++ [] := hcons.2 ▸ List.mem_append_right _ (.head _)
      rw [List.append_nil] at hmem
      exact hpoint (hd' _ hmem)
    · rw [hcons.2, List.takeWhile_append_of_pos hd', List.takeWhile_cons_of_neg he.not_isDigit,
        List.append_nil] at hruns
      rw [hruns] at hcons
      have hhead := (List.append_cancel_left hcons.2 : '.' :: rest = e :: (sign ++ es))
      cases hhead
      rcases he with he | he <;> cases he

theorem isDigit_lt (h : c.isDigit) : c.toNat < 128 := by
  simp only [Char.isDigit, Bool.and_eq_true, decide_eq_true_eq] at h
  have h' : c.toNat ≤ 57 := h.2
  omega

theorem isNameChar_lt (h : isNameChar c) : c.toNat < 128 := by
  simp only [isNameChar, Char.isAlphanum, Char.isAlpha, Char.isUpper, Char.isLower,
    Bool.or_eq_true, Bool.and_eq_true, decide_eq_true_eq] at h
  rcases h with (((⟨-, h⟩ | ⟨-, h⟩) | h) | rfl)
  · have h' : c.toNat ≤ 90 := h
    omega
  · have h' : c.toNat ≤ 122 := h
    omega
  · exact isDigit_lt h
  · decide

theorem isNameChar_of_isNameStart (h : isNameStart c) : isNameChar c := by
  simp only [isNameStart, isNameChar, Char.isAlphanum, Bool.or_eq_true] at h ⊢
  rcases h with h | h
  · exact .inl (.inl h)
  · exact .inr h

theorem Continues.lt (h : Continues cs) : ∀ c ∈ cs, c.toNat < 128 := by
  obtain ⟨ds, fr, ex, rfl, hd, hf, hex⟩ := h
  intro c hc
  simp only [List.mem_append] at hc
  rcases hc with hc | hc | hc
  · exact isDigit_lt (hd c hc)
  · rcases hf with rfl | ⟨fs, rfl, hfs⟩
    · cases hc
    · rcases List.mem_cons.mp hc with rfl | hc
      · decide
      · exact isDigit_lt (hfs c hc)
  · rcases hex with rfl | ⟨e, sign, es, rfl, he, hsign, hes, -⟩
    · cases hc
    · simp only [List.mem_cons, List.mem_append] at hc
      rcases hc with rfl | hc | hc
      · rcases he with rfl | rfl <;> decide
      · rcases hsign with rfl | rfl | rfl
        · cases hc
        · cases List.mem_singleton.mp hc
          decide
        · cases List.mem_singleton.mp hc
          decide
      · exact isDigit_lt (hes c hc)

theorem IsWhole.lt (h : IsWhole cs) : ∀ c ∈ cs, c.toNat < 128 := by
  obtain ⟨d, rest, rfl, hd, hk⟩ := h
  intro c hc
  rcases List.mem_cons.mp hc with rfl | hc
  · exact isDigit_lt hd
  · exact hk.lt c hc

/-- Tokens are written in ASCII. -/
theorem IsLexeme.lt {kind : Token.Kind} (h : IsLexeme kind cs) : ∀ c ∈ cs, c.toNat < 128 := by
  cases kind with
  | number =>
    rcases h with h | ⟨rest, rfl, h⟩
    · exact h.lt
    · intro c hc
      rcases List.mem_cons.mp hc with rfl | hc
      · decide
      · exact h.lt c hc
  | identifier =>
    obtain ⟨d, rest, rfl, hd, hrest⟩ := h
    intro c hc
    rcases List.mem_cons.mp hc with rfl | hc
    · exact isNameChar_lt (isNameChar_of_isNameStart hd)
    · exact isNameChar_lt (hrest c hc)
  | caret =>
    rcases h with rfl | rfl
    · simp
    · simp
  | _ =>
    cases h
    simp

end
end QuantumOps.Expression
