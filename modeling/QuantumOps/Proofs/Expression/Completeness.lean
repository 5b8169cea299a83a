import QuantumOps.Proofs.Expression.Soundness

/-! What the grammar derives is read, with the meaning of the derived tree, provided that the token
after it cannot continue it. The reader of a sum or a product does not come back before its tail has
taken all that it can, so that for these the tail reads on from the meaning. -/
namespace QuantumOps.Expression

/-- The kinds of tokens that would continue a phrase. -/
def Phrase.continued : Phrase → List Token.Kind
  | .primary => [.leftParen]
  | .power | .unary => [.leftParen, .caret]
  | .product => [.leftParen, .caret, .star, .slash]
  | .sum => [.leftParen, .caret, .star, .slash, .plus, .minus]

/-- The phrase is not continued by the first of the tokens. -/
def Phrase.EndsBefore (p : Phrase) (rest : List Token) : Prop :=
  ∀ t ∈ rest.head?, t.kind ∉ p.continued

section
variable {V W : Type} {m n : Nat} {column : Nat}

@[simp] theorem Phrase.endsBefore_nil (p : Phrase) : p.EndsBefore [] := by simp [EndsBefore]

@[simp] theorem Phrase.endsBefore_cons {p : Phrase} {t : Token} {rest : List Token} :
    p.EndsBefore (t :: rest) ↔ t.kind ∉ p.continued := by simp [EndsBefore]

theorem Phrase.EndsBefore.mono {p q : Phrase} {rest : List Token}
    (h : p.continued ⊆ q.continued) (hq : q.EndsBefore rest) : p.EndsBefore rest :=
  fun t ht hp => hq t ht (h hp)

@[simp] theorem past_endOfText {rest : List Token} {next : Reading V n} :
    past (.endOfText column) rest next = next := by
  unfold past
  split
  · rename_i h
    cases h
  · rfl

theorem Reading.andThen_of_result {r : Reading V m}
    {next : V → (rest : List Token) → rest.length < m → Reading W n} {v : V} {rest : List Token}
    (h : r.result = some (v, rest)) : ∃ hlt, r.andThen next = next v rest hlt := by
  cases r with
  | done w rest' hlt =>
    cases h
    exact ⟨hlt, rfl⟩
  | failed e rest' => cases h

end

section
variable {V : Type} (alg : Algebra V) (column : Nat)

/-- The reader of a phrase goes past the tokens with the meaning, whatever follows them that does
not continue the phrase. -/
def Reads (us : List Token) (v : V) : Phrase → Prop
  | .sum => ∀ rest, Phrase.product.EndsBefore rest →
    (sum alg (.endOfText column) (us ++ rest)).result =
      (sumTail alg (.endOfText column) v rest).result
  | .product => ∀ rest, Phrase.unary.EndsBefore rest →
    (product alg (.endOfText column) (us ++ rest)).result =
      (productTail alg (.endOfText column) v rest).result
  | .unary => ∀ rest, Phrase.unary.EndsBefore rest →
    (unary alg (.endOfText column) (us ++ rest)).result = some (v, rest)
  | .power => ∀ rest, Phrase.power.EndsBefore rest →
    (power alg (.endOfText column) (us ++ rest)).result = some (v, rest)
  | .primary => ∀ rest, Phrase.primary.EndsBefore rest →
    (primary alg (.endOfText column) (us ++ rest)).result = some (v, rest)

variable {alg column}

theorem sumTail_ends {v : V} {rest : List Token} (h : Phrase.sum.EndsBefore rest) :
    (sumTail alg (.endOfText column) v rest).result = some (v, rest) := by
  cases rest with
  | nil =>
    rw [sumTail]
    rfl
  | cons t rest =>
    rw [Phrase.endsBefore_cons] at h
    rw [sumTail, if_neg]
    · rfl
    · rintro (ht | ht) <;> simp [Phrase.continued, ht] at h

theorem productTail_ends {v : V} {rest : List Token} (h : Phrase.product.EndsBefore rest) :
    (productTail alg (.endOfText column) v rest).result = some (v, rest) := by
  cases rest with
  | nil =>
    rw [productTail]
    rfl
  | cons t rest =>
    rw [Phrase.endsBefore_cons] at h
    rw [productTail, if_neg]
    · rfl
    · rintro (ht | ht) <;> simp [Phrase.continued, ht] at h

theorem powerTail_ends {v : V} {rest : List Token} (h : Phrase.power.EndsBefore rest) :
    (powerTail alg (.endOfText column) v rest).result = some (v, rest) := by
  cases rest with
  | nil =>
    rw [powerTail]
    rfl
  | cons t rest =>
    rw [Phrase.endsBefore_cons] at h
    rw [powerTail, if_neg]
    · rfl
    · intro ht
      simp [Phrase.continued, ht] at h

theorem Reads.sum_of_ends {us rest : List Token} {v : V} (h : Reads alg column us v .sum)
    (hr : Phrase.sum.EndsBefore rest) :
    (sum alg (.endOfText column) (us ++ rest)).result = some (v, rest) := by
  rw [h rest (hr.mono (by simp [Phrase.continued])), sumTail_ends hr]

theorem Reads.product_of_ends {us rest : List Token} {v : V} (h : Reads alg column us v .product)
    (hr : Phrase.product.EndsBefore rest) :
    (product alg (.endOfText column) (us ++ rest)).result = some (v, rest) := by
  rw [h rest (hr.mono (by simp [Phrase.continued])), productTail_ends hr]

/-- The reader of a call goes past the arguments and the parenthesis after them. -/
def ReadsArgs (alg : Algebra V) (column : Nat) (us : List Token) (vs : List V) : Prop :=
  ∀ (name c : Token) (args : List V) (rest : List Token) (v : V), c.kind = .rightParen →
    alg.call name.lexeme (args ++ vs) = some v → ∃ w rest',
      (sum alg (.endOfText column) (us ++ c :: rest)).result = some (w, rest') ∧
      (argumentsTail alg (.endOfText column) name (args ++ [w]) rest').result = some (v, rest)

theorem apply_complete {name c : Token} {args : List V} {rest : List Token} {v : V}
    (hc : c.kind = .rightParen) (hv : alg.call name.lexeme args = some v) :
    (apply alg (.endOfText column) name args (c :: rest)).result = some (v, rest) := by
  simp [apply, close, hc, Reading.andThen, hv]

theorem Reads.of_number {t : Token} (h : t.kind = .number) :
    Reads alg column [t] (alg.number t.lexeme) .primary := by
  intro rest _
  simp [primary, h]

theorem value_complete {name : Token} {n : Nat} {rest : List Token} {hlt : rest.length < n} {v : V}
    (hv : alg.name name.lexeme = some v) : (value alg name rest hlt).result = some (v, rest) := by
  simp [value, hv]

theorem Reads.of_name {t : Token} {v : V} (h : t.kind = .identifier)
    (hv : alg.name t.lexeme = some v) : Reads alg column [t] v .primary := by
  intro rest hr
  have hn : (named alg (.endOfText column) t rest).result = some (v, rest) := by
    cases rest with
    | nil =>
      rw [named]
      exact value_complete hv
    | cons o rest =>
      rw [Phrase.endsBefore_cons] at hr
      rw [named, if_neg (by simpa [Phrase.continued] using hr)]
      exact value_complete hv
  simp [primary, h, hn]

theorem Reads.of_emptyCall {f o c : Token} {v : V} (hf : f.kind = .identifier)
    (ho : o.kind = .leftParen) (hc : c.kind = .rightParen) (hv : alg.call f.lexeme [] = some v) :
    Reads alg column [f, o, c] v .primary := by
  intro rest _
  have ha : (arguments alg (.endOfText column) f (c :: rest)).result = some (v, rest) := by
    rw [arguments, if_pos hc, apply_complete hc hv]
  simp [primary, hf, named, ho, ha]

theorem Reads.of_call {f o c : Token} {us : List Token} {vs : List V} {v : V}
    (hf : f.kind = .identifier) (ho : o.kind = .leftParen) (hc : c.kind = .rightParen)
    (hus : ∃ u us', us = u :: us' ∧ u.kind ∈ Phrase.sum.starts)
    (hargs : ReadsArgs alg column us vs)
    (hv : alg.call f.lexeme vs = some v) :
    Reads alg column (f :: o :: (us ++ [c])) v .primary := by
  intro rest _
  obtain ⟨w, rest', hs, ht⟩ := hargs f c [] rest v hc hv
  obtain ⟨u, us', rfl, hu⟩ := hus
  have ha : (arguments alg (.endOfText column) f (u :: us' ++ c :: rest)).result =
      some (v, rest) := by
    rw [List.cons_append] at hs ⊢
    rw [arguments, if_neg (by rintro h; simp [h, Phrase.starts] at hu)]
    obtain ⟨hlt, he⟩ := Reading.andThen_of_result hs
    rw [he, Reading.widen_result]
    exact ht
  have hts : us' ++ [c] ++ rest = us' ++ c :: rest := by simp
  simp only [List.cons_append] at ha ⊢
  rw [hts]
  simpa [primary, hf, named, ho] using ha

theorem ReadsArgs.of_last {us : List Token} {v : V} (h : Reads alg column us v .sum) :
    ReadsArgs alg column us [v] := by
  intro name c args rest w hc hw
  refine ⟨v, c :: rest, h.sum_of_ends (by simp [hc, Phrase.continued]), ?_⟩
  rw [argumentsTail, if_neg (by simp [hc]), apply_complete hc hw]

theorem ReadsArgs.of_cons {us us' : List Token} {o : Token} {v : V} {vs : List V}
    (ho : o.kind = .comma) (h : Reads alg column us v .sum) (hvs : ReadsArgs alg column us' vs) :
    ReadsArgs alg column (us ++ o :: us') (v :: vs) := by
  intro name c args rest w hc hw
  obtain ⟨x, rest', hs, ht⟩ := hvs name c (args ++ [v]) rest w hc (by simpa using hw)
  obtain ⟨hlt, he⟩ := Reading.andThen_of_result hs
  refine ⟨v, o :: (us' ++ c :: rest), ?_, ?_⟩
  · rw [List.append_assoc, List.cons_append]
    exact h.sum_of_ends (by simp [ho, Phrase.continued])
  · rw [argumentsTail, if_pos ho, past_endOfText, he, Reading.widen_result, ht]

theorem Reads.of_group {o c : Token} {us : List Token} {v : V} (ho : o.kind = .leftParen)
    (hc : c.kind = .rightParen) (h : Reads alg column us v .sum) :
    Reads alg column (o :: (us ++ [c])) (alg.group v) .primary := by
  intro rest _
  have hs : (sum alg (.endOfText column) (us ++ c :: rest)).result = some (v, c :: rest) :=
    h.sum_of_ends (by simp [hc, Phrase.continued])
  have hts : o :: (us ++ [c]) ++ rest = o :: (us ++ c :: rest) := by simp
  obtain ⟨hlt, he⟩ := Reading.andThen_of_result hs
  rw [hts, primary]
  simp only [ho, past_endOfText]
  rw [he]
  simp [close, hc, Reading.andThen]

theorem Reads.of_primary {us : List Token} {v : V} (h : Reads alg column us v .primary) :
    Reads alg column us v .power := by
  intro rest hr
  obtain ⟨hlt, he⟩ := Reading.andThen_of_result (h rest (hr.mono (by simp [Phrase.continued])))
  rw [power, he, Reading.widen_result, powerTail_ends hr]

theorem Reads.of_pow {us vs : List Token} {o : Token} {x y : V} (ho : o.kind = .caret)
    (hl : Reads alg column us x .primary) (hr : Reads alg column vs y .unary) :
    Reads alg column (us ++ o :: vs) (alg.pow x y) .power := by
  intro rest hrest
  have hb := hl (o :: (vs ++ rest)) (by simp [ho, Phrase.continued])
  obtain ⟨hlt, he⟩ := Reading.andThen_of_result hb
  obtain ⟨hlt', he'⟩ := Reading.andThen_of_result (hr rest hrest)
  rw [List.append_assoc, List.cons_append, power, he, Reading.widen_result, powerTail, if_pos ho,
    past_endOfText, he']
  rfl

theorem Reads.of_power {us : List Token} {v : V}
    (hus : ∃ u us', us = u :: us' ∧ u.kind ∈ Phrase.power.starts)
    (h : Reads alg column us v .power) : Reads alg column us v .unary := by
  intro rest hr
  obtain ⟨u, us', rfl, hu⟩ := hus
  have hp := h rest hr
  rw [List.cons_append] at hp ⊢
  rw [unary, if_neg (by rintro (h | h) <;> simp [h, Phrase.starts] at hu), hp]

theorem Reads.of_pos {us : List Token} {o : Token} {v : V} (ho : o.kind = .plus)
    (h : Reads alg column us v .unary) : Reads alg column (o :: us) (alg.pos v) .unary := by
  intro rest hr
  obtain ⟨hlt, he⟩ := Reading.andThen_of_result (h rest hr)
  rw [List.cons_append, unary, if_pos (.inr ho), past_endOfText, he,
    if_neg (by simp [ho])]
  rfl

theorem Reads.of_neg {us : List Token} {o : Token} {v : V} (ho : o.kind = .minus)
    (h : Reads alg column us v .unary) : Reads alg column (o :: us) (alg.neg v) .unary := by
  intro rest hr
  obtain ⟨hlt, he⟩ := Reading.andThen_of_result (h rest hr)
  rw [List.cons_append, unary, if_pos (.inl ho), past_endOfText, he, if_pos ho]
  rfl

theorem Reads.of_unary {us : List Token} {v : V} (h : Reads alg column us v .unary) :
    Reads alg column us v .product := by
  intro rest hr
  obtain ⟨hlt, he⟩ := Reading.andThen_of_result (h rest hr)
  rw [product, he, Reading.widen_result]

theorem Reads.of_mul {us vs : List Token} {o : Token} {x y : V} (ho : o.kind = .star)
    (hl : Reads alg column us x .product) (hr : Reads alg column vs y .unary) :
    Reads alg column (us ++ o :: vs) (alg.mul x y) .product := by
  intro rest hrest
  obtain ⟨hlt, he⟩ := Reading.andThen_of_result (hr rest hrest)
  rw [List.append_assoc, List.cons_append, hl _ (by simp [ho, Phrase.continued]), productTail,
    if_pos (.inl ho), past_endOfText, he]
  simp [ho]

theorem Reads.of_div {us vs : List Token} {o : Token} {x y v : V} (ho : o.kind = .slash)
    (hl : Reads alg column us x .product) (hr : Reads alg column vs y .unary)
    (hv : alg.div x y = some v) : Reads alg column (us ++ o :: vs) v .product := by
  intro rest hrest
  obtain ⟨hlt, he⟩ := Reading.andThen_of_result (hr rest hrest)
  rw [List.append_assoc, List.cons_append, hl _ (by simp [ho, Phrase.continued]), productTail,
    if_pos (.inr ho), past_endOfText, he]
  simp [ho, hv]

theorem Reads.of_product {us : List Token} {v : V} (h : Reads alg column us v .product) :
    Reads alg column us v .sum := by
  intro rest hr
  obtain ⟨hlt, he⟩ := Reading.andThen_of_result (h.product_of_ends hr)
  rw [sum, he, Reading.widen_result]

theorem Reads.of_add {us vs : List Token} {o : Token} {x y : V} (ho : o.kind = .plus)
    (hl : Reads alg column us x .sum) (hr : Reads alg column vs y .product) :
    Reads alg column (us ++ o :: vs) (alg.add x y) .sum := by
  intro rest hrest
  obtain ⟨hlt, he⟩ := Reading.andThen_of_result (hr.product_of_ends hrest)
  rw [List.append_assoc, List.cons_append, hl _ (by simp [ho, Phrase.continued]), sumTail,
    if_pos (.inl ho), past_endOfText, he, if_pos ho, Reading.widen_result]

theorem Reads.of_sub {us vs : List Token} {o : Token} {x y : V} (ho : o.kind = .minus)
    (hl : Reads alg column us x .sum) (hr : Reads alg column vs y .product) :
    Reads alg column (us ++ o :: vs) (alg.sub x y) .sum := by
  intro rest hrest
  obtain ⟨hlt, he⟩ := Reading.andThen_of_result (hr.product_of_ends hrest)
  rw [List.append_assoc, List.cons_append, hl _ (by simp [ho, Phrase.continued]), sumTail,
    if_pos (.inr ho), past_endOfText, he, if_neg (by simp [ho]), Reading.widen_result]

mutual

theorem Derives.reads {p : Phrase} {us : List Token} {t : Tree} {v : V} :
    Derives p us t → t.value alg = some v → Reads alg column us v p
  | .number h, hv => by
    cases hv
    exact .of_number h
  | .name h, hv => .of_name h hv
  | .emptyCall hf ho hc, hv => .of_emptyCall hf ho hc hv
  | .call hf ho hargs hc, hv => by
    obtain ⟨vs, hvs, hcall⟩ := Option.bind_eq_some_iff.mp hv
    exact .of_call hf ho hc hargs.head (hargs.reads hvs) hcall
  | .group ho ht hc, hv => by
    obtain ⟨x, hx, rfl⟩ := Option.map_eq_some_iff.mp hv
    exact .of_group ho hc (ht.reads hx)
  | .primary ht, hv => .of_primary (ht.reads hv)
  | .pow hl ho hr, hv => by
    obtain ⟨x, hx, hv⟩ := Option.bind_eq_some_iff.mp hv
    obtain ⟨y, hy, rfl⟩ := Option.map_eq_some_iff.mp hv
    exact .of_pow ho (hl.reads hx) (hr.reads hy)
  | .power ht, hv => .of_power ht.head (ht.reads hv)
  | .pos ho ht, hv => by
    obtain ⟨x, hx, rfl⟩ := Option.map_eq_some_iff.mp hv
    exact .of_pos ho (ht.reads hx)
  | .neg ho ht, hv => by
    obtain ⟨x, hx, rfl⟩ := Option.map_eq_some_iff.mp hv
    exact .of_neg ho (ht.reads hx)
  | .unary ht, hv => .of_unary (ht.reads hv)
  | .mul hl ho hr, hv => by
    obtain ⟨x, hx, hv⟩ := Option.bind_eq_some_iff.mp hv
    obtain ⟨y, hy, rfl⟩ := Option.map_eq_some_iff.mp hv
    exact .of_mul ho (hl.reads hx) (hr.reads hy)
  | .div hl ho hr, hv => by
    obtain ⟨x, hx, hv⟩ := Option.bind_eq_some_iff.mp hv
    obtain ⟨y, hy, hv⟩ := Option.bind_eq_some_iff.mp hv
    exact .of_div ho (hl.reads hx) (hr.reads hy) hv
  | .product ht, hv => .of_product (ht.reads hv)
  | .add hl ho hr, hv => by
    obtain ⟨x, hx, hv⟩ := Option.bind_eq_some_iff.mp hv
    obtain ⟨y, hy, rfl⟩ := Option.map_eq_some_iff.mp hv
    exact .of_add ho (hl.reads hx) (hr.reads hy)
  | .sub hl ho hr, hv => by
    obtain ⟨x, hx, hv⟩ := Option.bind_eq_some_iff.mp hv
    obtain ⟨y, hy, rfl⟩ := Option.map_eq_some_iff.mp hv
    exact .of_sub ho (hl.reads hx) (hr.reads hy)

theorem DerivesArgs.reads {us : List Token} {ts : List Tree} {vs : List V} :
    DerivesArgs us ts → Tree.values alg ts = some vs → ReadsArgs alg column us vs
  | .last ht, hvs => by
    obtain ⟨x, hx, hv⟩ := Option.bind_eq_some_iff.mp hvs
    cases hv
    exact .of_last (ht.reads hx)
  | .cons ht ho hargs, hvs => by
    obtain ⟨x, hx, hv⟩ := Option.bind_eq_some_iff.mp hvs
    obtain ⟨xs, hxs, rfl⟩ := Option.map_eq_some_iff.mp hv
    exact .of_cons ho (ht.reads hx) (hargs.reads hxs)

end

end
end QuantumOps.Expression
