import QuantumOps.Proofs.Expression.Evaluation
import QuantumOps.Proofs.Expression.Lexing

/-! Texts that are one phrase wherever they stand, and the larger texts that are written around
them. What is put in parentheses or in a call is a primary, whatever phrase it was. -/
namespace QuantumOps.Expression

/-- How far a phrase is from a primary. -/
def Phrase.rank : Phrase → Nat
  | .primary => 0
  | .power => 1
  | .unary => 2
  | .product => 3
  | .sum => 4

instance : LE Phrase := ⟨fun p q => p.rank ≤ q.rank⟩

instance (p q : Phrase) : Decidable (p ≤ q) := inferInstanceAs (Decidable (p.rank ≤ q.rank))

theorem Phrase.primary_le (p : Phrase) : .primary ≤ p := Nat.zero_le _

theorem Phrase.le_sum (p : Phrase) : p ≤ .sum := by
  cases p <;> decide

/-- A phrase of higher precedence is one of lower precedence too. -/
theorem Derives.mono {p q : Phrase} {ts : List Token} {t : Tree} (h : p ≤ q)
    (hd : Derives p ts t) : Derives q ts t := by
  have h : p.rank ≤ q.rank := h
  cases p <;> cases q <;> simp only [Phrase.rank] at h <;> first
    | omega
    | exact hd
    | exact .primary hd
    | exact .power hd
    | exact .power (.primary hd)
    | exact .unary hd
    | exact .unary (.power hd)
    | exact .unary (.power (.primary hd))
    | exact .product hd
    | exact .product (.unary hd)
    | exact .product (.unary (.power hd))
    | exact .product (.unary (.power (.primary hd)))

/-- Wherever the text stands, its tokens are a phrase of the kind with the tree. -/
def Spells (p : Phrase) (s : String) (t : Tree) : Prop :=
  ∀ column, ∃ ts last, scan column s.toList = ⟨ts, .endOfText last⟩ ∧ Derives p ts t

section
variable {p q : Phrase} {s : String} {t u : Tree}

theorem Spells.mono (h : p ≤ q) (hs : Spells p s t) : Spells q s t := by
  intro column
  obtain ⟨ts, last, hts, hd⟩ := hs column
  exact ⟨ts, last, hts, hd.mono h⟩

/-- It is enough that the text is the phrase on its own. -/
theorem Spells.of_tokenize {last : Nat} (he : (tokenize s).ending = .endOfText last)
    (hd : Derives p (tokenize s).tokens t) : Spells p s t := by
  intro column
  have h1 : tokenize s = (scan 0 s.toList).moved (· + 1) := by
    have h := scan_moved 1 0 s.toList
    rwa [Nat.zero_add] at h
  have hc : scan column s.toList = (scan 0 s.toList).moved (· + column) := by
    have h := scan_moved column 0 s.toList
    rwa [Nat.zero_add] at h
  rw [h1] at he hd
  rw [hc]
  generalize scan 0 s.toList = text at he hd ⊢
  obtain ⟨ts, ending⟩ := text
  cases ending with
  | fault cause c => cases he
  | endOfText c =>
    refine ⟨_, _, rfl, ?_⟩
    have h := hd.moved (· - 1)
    simp only [Tokens.moved, List.map_map] at h
    have hid : Token.moved (· - 1) ∘ Token.moved (· + 1) = id := by
      funext t
      rfl
    rw [hid, List.map_id] at h
    exact h.moved _

theorem Spells.before (hs : Spells p s t) {d : Char} (hd : IsDelimiter d) (column : Nat)
    (vs : List Char) : ∃ ts column', Derives p ts t ∧
      scan column (s.toList ++ d :: vs) = (scan column' (d :: vs)).prepend ts := by
  obtain ⟨ts, last, hts, hder⟩ := hs column
  exact ⟨ts, _, hder, (scan_delimited hd hts).2⟩

/-- A token of one character. -/
theorem scan_symbol {c : Char} {cs : List Char} {kind : Token.Kind} (hc : isBlank c = false)
    (hm : munch c cs = .ok (kind, 0)) (column : Nat) :
    scan column (c :: cs) =
      (scan (column + 1) cs).prepend [⟨kind, String.ofList [c], column⟩] := by
  rw [scan_token hc hm]
  rfl

/-- Ends a text with a closing parenthesis. -/
theorem scan_close (column : Nat) :
    scan column [')'] = ⟨[⟨.rightParen, ")", column⟩], .endOfText (column + 1)⟩ := by
  rw [scan_symbol (by decide) rfl, scan_nil]
  rfl

/-- A phrase in parentheses is a primary. -/
theorem Spells.group (hs : Spells .sum s t) : Spells .primary ("(" ++ s ++ ")") (.group t) := by
  intro column
  have hlist : ("(" ++ s ++ ")").toList = '(' :: (s.toList ++ [')']) := by
    simp [String.toList_append]
  obtain ⟨us, column₁, hus, hscan⟩ := hs.before (.inr (.inr (.inl rfl)) : IsDelimiter ')')
    (column + 1) []
  refine ⟨⟨.leftParen, "(", column⟩ :: (us ++ [⟨.rightParen, ")", column₁⟩]), column₁ + 1, ?_,
    .group rfl hus rfl⟩
  rw [hlist, scan_symbol (by decide) rfl, hscan, scan_close]
  simp [Tokens.prepend]

/-- An operator between two phrases. -/
theorem Spells.spaced {l r op : String} {c : Char} {kind : Token.Kind} {w : Tree}
    (hl : Spells p l t) (hr : Spells q r u) (hop : op.toList = [c]) (hc : isBlank c = false)
    (hm : ∀ cs, munch c (' ' :: cs) = .ok (kind, 0))
    (hd : ∀ {us vs : List Token} {o : Token}, o.kind = kind → Derives p us t → Derives q vs u →
      Derives .sum (us ++ o :: vs) w) :
    Spells .sum (l ++ " " ++ op ++ " " ++ r) w := by
  intro column
  have hlist : (l ++ " " ++ op ++ " " ++ r).toList = l.toList ++ ' ' :: c :: ' ' :: r.toList := by
    simp [String.toList_append, hop]
  obtain ⟨us, column₁, hus, hscan₁⟩ := hl.before (.inl rfl : IsDelimiter ' ') column
    (c :: ' ' :: r.toList)
  obtain ⟨vs, last, hscan₂, hvs⟩ := hr (column₁ + 1 + 1 + 1)
  refine ⟨us ++ ⟨kind, String.ofList [c], column₁ + 1⟩ :: vs, last, ?_, hd rfl hus hvs⟩
  rw [hlist, hscan₁, scan_blank (by decide), scan_symbol hc (hm _), scan_blank (by decide), hscan₂]
  simp [Tokens.prepend]

section
variable {l r : String}

theorem Spells.add (hl : Spells .sum l t) (hr : Spells .product r u) :
    Spells .sum (l ++ " " ++ "+" ++ " " ++ r) (.add t u) :=
  hl.spaced hr rfl (by decide) (fun _ => rfl) fun ho ht hu => .add ht ho hu

theorem Spells.sub (hl : Spells .sum l t) (hr : Spells .product r u) :
    Spells .sum (l ++ " " ++ "-" ++ " " ++ r) (.sub t u) :=
  hl.spaced hr rfl (by decide) (fun _ => rfl) fun ho ht hu => .sub ht ho hu

theorem Spells.mul (hl : Spells .product l t) (hr : Spells .unary r u) :
    Spells .sum (l ++ " " ++ "*" ++ " " ++ r) (.mul t u) :=
  hl.spaced hr rfl (by decide) (fun _ => rfl) fun ho ht hu => .product (.mul ht ho hu)

theorem Spells.div (hl : Spells .product l t) (hr : Spells .unary r u) :
    Spells .sum (l ++ " " ++ "/" ++ " " ++ r) (.div t u) :=
  hl.spaced hr rfl (by decide) (fun _ => rfl) fun ho ht hu => .product (.div ht ho hu)

/-- A factor after a text multiplies no more than its last term. -/
theorem Spells.timesLast (hl : Spells .sum l t) (hr : Spells .unary r u) :
    Spells .sum (l ++ " " ++ "*" ++ " " ++ r) (t.timesLast u) :=
  hl.spaced hr rfl (by decide) (fun _ => rfl) fun ho ht hu => ht.timesLast ho hu

/-- An operator and its operands in parentheses, written as one text after another. -/
theorem Spells.operation {op : String} {w : Tree}
    (hs : Spells .sum (l ++ " " ++ op ++ " " ++ r) w) :
    Spells .primary ("(" ++ l ++ " " ++ op ++ " " ++ r ++ ")") (.group w) := by
  simpa only [String.append_assoc] using hs.group

end

/-- A minus sign right before a unary. -/
theorem Spells.minus (hs : Spells .unary s t) : Spells .unary ("-" ++ s) (.neg t) := by
  intro column
  have hlist : ("-" ++ s).toList = '-' :: s.toList := by simp [String.toList_append]
  obtain ⟨us, last, hscan, hus⟩ := hs (column + 1)
  refine ⟨⟨.minus, "-", column⟩ :: us, last, ?_, .neg rfl hus⟩
  rw [hlist, scan_symbol (by decide) rfl, hscan]
  rfl

/-- A minus sign before a unary, in parentheses. -/
theorem Spells.negation (hs : Spells .unary s t) :
    Spells .primary ("(-" ++ s ++ ")") (.group (.neg t)) := by
  have h : "(-" ++ s = "(" ++ ("-" ++ s) := by
    rw [← String.append_assoc]
    rfl
  rw [h]
  exact (hs.minus.mono (by decide)).group

/-- The text is one name. -/
def IsName (name : String) : Prop :=
  ∀ column, ∃ f last, scan column name.toList = ⟨[f], .endOfText last⟩ ∧ f.kind = .identifier ∧
    f.lexeme = name

theorem isName_of_munch {name : String} {c : Char} {cs : List Char} (hname : name.toList = c :: cs)
    (hc : isBlank c = false) (hm : munch c cs = .ok (.identifier, cs.length)) : IsName name := by
  intro column
  rw [hname, scan_token hc hm, List.drop_length, List.take_length, scan_nil, ← hname,
    String.ofList_toList]
  exact ⟨_, _, rfl, rfl, rfl⟩

/-- A call of a function with one argument. -/
theorem Spells.call {name : String} (hn : IsName name) (hs : Spells .sum s t) :
    Spells .primary (name ++ "(" ++ s ++ ")") (.call name [t]) := by
  intro column
  have hlist : (name ++ "(" ++ s ++ ")").toList = name.toList ++ '(' :: (s.toList ++ [')']) := by
    simp [String.toList_append]
  obtain ⟨f, last, hf, hkind, hname⟩ := hn column
  have hscan₁ : scan column (name.toList ++ '(' :: (s.toList ++ [')'])) = _ :=
    (scan_delimited (.inr (.inl rfl) : IsDelimiter '(') hf).2
  obtain ⟨us, column₁, hus, hscan₂⟩ := hs.before (.inr (.inr (.inl rfl)) : IsDelimiter ')')
    (column + name.toList.length + 1) []
  refine ⟨f :: ⟨.leftParen, "(", column + name.toList.length⟩ ::
    (us ++ [⟨.rightParen, ")", column₁⟩]), column₁ + 1, ?_,
    hname ▸ .call hkind rfl (.last hus) rfl⟩
  rw [hlist, hscan₁, scan_symbol (by decide) rfl, hscan₂, scan_close]
  simp [Tokens.prepend]

/-- A call of a function with two arguments. -/
theorem Spells.call_pair {name r : String} (hn : IsName name) (hs : Spells .sum s t)
    (hr : Spells .sum r u) :
    Spells .primary (name ++ "(" ++ s ++ ", " ++ r ++ ")") (.call name [t, u]) := by
  intro column
  have hlist : (name ++ "(" ++ s ++ ", " ++ r ++ ")").toList =
      name.toList ++ '(' :: (s.toList ++ ',' :: ' ' :: (r.toList ++ [')'])) := by
    simp [String.toList_append]
  obtain ⟨f, last, hf, hkind, hname⟩ := hn column
  have hscan₁ : scan column (name.toList ++ '(' :: (s.toList ++ ',' :: ' ' ::
      (r.toList ++ [')']))) = _ := (scan_delimited (.inr (.inl rfl) : IsDelimiter '(') hf).2
  obtain ⟨us, column₁, hus, hscan₂⟩ := hs.before (.inr (.inr (.inr rfl)) : IsDelimiter ',')
    (column + name.toList.length + 1) (' ' :: (r.toList ++ [')']))
  obtain ⟨vs, column₂, hvs, hscan₃⟩ := hr.before (.inr (.inr (.inl rfl)) : IsDelimiter ')')
    (column₁ + 1 + 1) []
  refine ⟨f :: ⟨.leftParen, "(", column + name.toList.length⟩ ::
    ((us ++ ⟨.comma, ",", column₁⟩ :: vs) ++ [⟨.rightParen, ")", column₂⟩]), column₂ + 1, ?_,
    hname ▸ .call hkind rfl (.cons hus rfl (.last hvs)) rfl⟩
  rw [hlist, hscan₁, scan_symbol (by decide) rfl, hscan₂, scan_symbol (by decide) rfl,
    scan_blank (by decide), hscan₃, scan_close]
  simp [Tokens.prepend]

theorem Spells.name (hn : IsName s) : Spells .primary s (.name s) := by
  intro column
  obtain ⟨f, last, hf, hkind, hname⟩ := hn column
  exact ⟨[f], last, hf, hname ▸ .name hkind⟩

/-- The value of a text that is one sum is that of its tree. -/
theorem Spells.evaluate {R : Type} [Numeric R] {vars : Variables R} {v : R}
    (hs : Spells .sum s t) : evaluate vars s = .ok v ↔ t.value (numbers vars) = some v := by
  obtain ⟨ts, last, hscan, hd⟩ := hs 1
  have htok : tokenize s = ⟨ts, .endOfText last⟩ := hscan
  rw [Expression.evaluate, Tokens.read_eq_ok_iff, htok]
  constructor
  · rintro ⟨-, t', hd', hv⟩
    rwa [hd'.unique hd] at hv
  · intro hv
    exact ⟨⟨last, rfl⟩, t, hd, hv⟩

/-- A text with a value is one sum. -/
theorem exists_spells {R : Type} [Numeric R] {vars : Variables R} {v : R}
    (h : Expression.evaluate vars s = .ok v) :
    ∃ t, Spells .sum s t ∧ t.value (numbers vars) = some v := by
  rw [Expression.evaluate, Tokens.read_eq_ok_iff] at h
  obtain ⟨⟨last, he⟩, t, hd, hv⟩ := h
  exact ⟨t, .of_tokenize he hd, hv⟩

end
end QuantumOps.Expression
