import QuantumOps.Proofs.Expression.Grammar

/-! What reading a phrase finds: a meaning is only found where the grammar derives a tree with that
meaning from the tokens passed, and where the text does not break off right after them. -/
namespace QuantumOps.Expression

/-- What a reading comes to when no bound on the tokens left is asked for. -/
def Reading.result {V : Type} {n : Nat} : Reading V n → Option (V × List Token)
  | .done v rest _ => some (v, rest)
  | .failed _ _ => none

/-- The place before the tokens can come into sight: there is a token, or the text ends well. -/
def Ending.Allows (ending : Ending) (rest : List Token) : Prop :=
  rest = [] → ∃ column, ending = .endOfText column

section
variable {V W : Type} {m n : Nat} {ending : Ending} {v : V} {rest : List Token}

@[simp] theorem Reading.done_result (h : rest.length < n) :
    (done v rest h).result = some (v, rest) := rfl

@[simp] theorem Reading.failed_result (e : Error) :
    (failed e rest : Reading V n).result = none := rfl

theorem Reading.andThen_result {r : Reading V m}
    {next : V → (rest : List Token) → rest.length < m → Reading W n} {p : W × List Token}
    (h : (r.andThen next).result = some p) :
    ∃ v rest hlt, r.result = some (v, rest) ∧ (next v rest hlt).result = some p := by
  cases r with
  | done v rest hlt => exact ⟨v, rest, hlt, rfl, h⟩
  | failed e rest => cases h

@[simp] theorem Reading.widen_result (r : Reading V m) (h : m ≤ n) :
    (r.widen h).result = r.result := by
  cases r <;> rfl

@[simp] theorem missing_result (wanted : Wanted) (ts : List Token) :
    (missing wanted ending ts : Reading V n).result = none := by
  cases ts <;> rfl

theorem past_result {next : Reading V n} {p : V × List Token}
    (h : (past ending rest next).result = some p) : ending.Allows rest ∧ next.result = some p := by
  unfold past at h
  split at h
  · cases h
  · rename_i hne
    refine ⟨fun hr => ?_, h⟩
    cases ending with
    | endOfText column => exact ⟨column, rfl⟩
    | fault cause column => exact (hne cause column hr rfl).elim

theorem close_result {wanted : Wanted} {ts : List Token} {p : Unit × List Token}
    (h : (close ending wanted ts).result = some p) :
    ∃ c, ts = c :: p.2 ∧ c.kind = .rightParen ∧ ending.Allows p.2 := by
  cases ts with
  | nil => cases h
  | cons c ts =>
    simp only [close] at h
    split at h
    · rename_i hc
      obtain ⟨ha, hp⟩ := past_result h
      cases hp
      exact ⟨c, rfl, hc, ha⟩
    · simp at h

end

section
variable {V : Type} (alg : Algebra V) (ending : Ending)

/-- From the tokens a phrase of the kind with the meaning has been read, up to the rest. -/
def Finds (p : Phrase) (ts : List Token) (v : V) (rest : List Token) : Prop :=
  ∃ us t, ts = us ++ rest ∧ Derives p us t ∧ t.value alg = some v ∧ ending.Allows rest

/-- After the arguments read and a phrase `us`, the tokens go on to the parenthesis that closes the
call: the phrase begins the remaining arguments, and the call of the name has the value. -/
def FindsArguments (name : Token) (args : List V) (us ts : List Token) (v : V)
    (rest : List Token) : Prop :=
  ∃ vs trees ws c, ts = vs ++ c :: rest ∧ DerivesArgs (us ++ vs) trees ∧
    Tree.values alg trees = some ws ∧ c.kind = .rightParen ∧
    alg.call name.lexeme (args ++ ws) = some v ∧ ending.Allows rest

variable {alg ending}

theorem Finds.mono {p q : Phrase} {ts rest : List Token} {v : V}
    (hd : ∀ {us t}, Derives p us t → Derives q us t) (h : Finds alg ending p ts v rest) :
    Finds alg ending q ts v rest := by
  obtain ⟨us, t, hts, ht, hv, ha⟩ := h
  exact ⟨us, t, hts, hd ht, hv, ha⟩

/-- A tail that takes nothing leaves the phrase before it as it is. -/
theorem Finds.of_derives {p : Phrase} {us ts : List Token} {t : Tree} {v : V}
    (hd : Derives p us t) (hv : t.value alg = some v) (ha : ending.Allows ts) :
    Finds alg ending p (us ++ ts) v ts :=
  ⟨us, t, rfl, hd, hv, ha⟩

theorem value_sound {name : Token} {n : Nat} {ts rest : List Token} {h : ts.length < n} {v : V}
    (hn : name.kind = .identifier) (ha : ending.Allows ts)
    (hr : (value alg name ts h).result = some (v, rest)) :
    Finds alg ending .primary (name :: ts) v rest := by
  unfold value at hr
  split at hr
  · rename_i w hw
    cases hr
    exact ⟨[name], .name name.lexeme, rfl, .name hn, hw, ha⟩
  · cases hr

theorem apply_sound {name : Token} {args : List V} {ts rest : List Token} {v : V}
    (h : (apply alg ending name args ts).result = some (v, rest)) :
    ∃ c, ts = c :: rest ∧ c.kind = .rightParen ∧ alg.call name.lexeme args = some v ∧
      ending.Allows rest := by
  obtain ⟨_, rest', hlt, hc, hv⟩ := Reading.andThen_result h
  obtain ⟨c, rfl, hk, ha⟩ := close_result hc
  split at hv
  · rename_i w hw
    cases hv
    exact ⟨c, rfl, hk, hw, ha⟩
  · cases hv

/-- The call closes right after a phrase, which is its last argument. -/
theorem FindsArguments.last {name : Token} {args : List V} {us ts rest : List Token} {t : Tree}
    {w v : V} (hd : Derives .sum us t) (hw : t.value alg = some w)
    (h : (apply alg ending name (args ++ [w]) ts).result = some (v, rest)) :
    FindsArguments alg ending name args us ts v rest := by
  obtain ⟨c, rfl, hc, hv, ha⟩ := apply_sound h
  exact ⟨[], [t], [w], c, rfl, by simpa using DerivesArgs.last hd, by simp [Tree.values, hw],
    hc, hv, ha⟩

/-- A comma after a phrase makes it one more argument before those of the next phrase. -/
theorem FindsArguments.cons {name o : Token} {args : List V} {us us' ts rest : List Token}
    {t : Tree} {w v : V} (hd : Derives .sum us t) (hw : t.value alg = some w)
    (ho : o.kind = .comma)
    (h : FindsArguments alg ending name (args ++ [w]) us' ts v rest) :
    FindsArguments alg ending name args us (o :: (us' ++ ts)) v rest := by
  obtain ⟨vs, trees, ws, c, rfl, hargs, hws, hc, hcall, ha⟩ := h
  exact ⟨o :: (us' ++ vs), t :: trees, w :: ws, c, by simp, .cons hd ho hargs,
    by simp [Tree.values, hw, hws], hc, by simpa using hcall, ha⟩

mutual

theorem sum_sound {ts rest : List Token} {v : V}
    (h : (sum alg ending ts).result = some (v, rest)) : Finds alg ending .sum ts v rest := by
  rw [sum] at h
  obtain ⟨left, rest', hlt, hp, ht⟩ := Reading.andThen_result h
  obtain ⟨us, t, rfl, hd, hv, ha⟩ := product_sound hp
  rw [Reading.widen_result] at ht
  exact sumTail_sound (.product hd) hv ha ht
termination_by (ts.length, 7)

theorem sumTail_sound {us ts rest : List Token} {t : Tree} {left v : V}
    (hd : Derives .sum us t) (hv : t.value alg = some left) (ha : ending.Allows ts)
    (h : (sumTail alg ending left ts).result = some (v, rest)) :
    Finds alg ending .sum (us ++ ts) v rest := by
  match ts with
  | [] =>
    rw [sumTail] at h
    cases h
    exact .of_derives hd hv ha
  | o :: ts =>
    rw [sumTail] at h
    split at h
    · rename_i ho
      obtain ⟨-, h⟩ := past_result h
      obtain ⟨right, rest', hlt, hp, ht⟩ := Reading.andThen_result h
      obtain ⟨vs, r, rfl, hr, hw, hb⟩ := product_sound hp
      rw [Reading.widen_result] at ht
      rcases ho with ho | ho
      · rw [if_pos ho] at ht
        have hs := sumTail_sound (.add hd ho hr) (by simp [Tree.value, hv, hw]) hb ht
        simpa using hs
      · rw [if_neg (by simp [ho])] at ht
        have hs := sumTail_sound (.sub hd ho hr) (by simp [Tree.value, hv, hw]) hb ht
        simpa using hs
    · cases h
      exact .of_derives hd hv ha
termination_by (ts.length, 0)

theorem product_sound {ts rest : List Token} {v : V}
    (h : (product alg ending ts).result = some (v, rest)) :
    Finds alg ending .product ts v rest := by
  rw [product] at h
  obtain ⟨left, rest', hlt, hp, ht⟩ := Reading.andThen_result h
  obtain ⟨us, t, rfl, hd, hv, ha⟩ := unary_sound hp
  rw [Reading.widen_result] at ht
  exact productTail_sound (.unary hd) hv ha ht
termination_by (ts.length, 6)

theorem productTail_sound {us ts rest : List Token} {t : Tree} {left v : V}
    (hd : Derives .product us t) (hv : t.value alg = some left) (ha : ending.Allows ts)
    (h : (productTail alg ending left ts).result = some (v, rest)) :
    Finds alg ending .product (us ++ ts) v rest := by
  match ts with
  | [] =>
    rw [productTail] at h
    cases h
    exact .of_derives hd hv ha
  | o :: ts =>
    rw [productTail] at h
    split at h
    · rename_i ho
      obtain ⟨-, h⟩ := past_result h
      obtain ⟨right, rest', hlt, hp, ht⟩ := Reading.andThen_result h
      obtain ⟨vs, r, rfl, hr, hw, hb⟩ := unary_sound hp
      rcases ho with ho | ho
      · simp only [if_pos ho, Reading.widen_result] at ht
        have hs := productTail_sound (.mul hd ho hr) (by simp [Tree.value, hv, hw]) hb ht
        simpa using hs
      · have hne : o.kind ≠ .star := by simp [ho]
        simp only [if_neg hne] at ht
        split at ht
        · rename_i w hdiv
          rw [Reading.widen_result] at ht
          have hs := productTail_sound (.div hd ho hr) (by simp [Tree.value, hv, hw, hdiv]) hb ht
          simpa using hs
        · cases ht
    · cases h
      exact .of_derives hd hv ha
termination_by (ts.length, 0)

theorem unary_sound {ts rest : List Token} {v : V}
    (h : (unary alg ending ts).result = some (v, rest)) : Finds alg ending .unary ts v rest := by
  match ts with
  | [] =>
    rw [unary] at h
    simp at h
  | o :: ts =>
    rw [unary] at h
    split at h
    · rename_i ho
      obtain ⟨-, h⟩ := past_result h
      obtain ⟨w, rest', hlt, hp, ht⟩ := Reading.andThen_result h
      obtain ⟨us, t, rfl, hd, hv, ha⟩ := unary_sound hp
      rcases ho with ho | ho
      · rw [if_pos ho] at ht
        cases ht
        exact ⟨o :: us, .neg t, rfl, .neg ho hd, by simp [Tree.value, hv], ha⟩
      · rw [if_neg (by simp [ho])] at ht
        cases ht
        exact ⟨o :: us, .pos t, rfl, .pos ho hd, by simp [Tree.value, hv], ha⟩
    · exact (power_sound h).mono .power
termination_by (ts.length, 5)

theorem power_sound {ts rest : List Token} {v : V}
    (h : (power alg ending ts).result = some (v, rest)) : Finds alg ending .power ts v rest := by
  rw [power] at h
  obtain ⟨base, rest', hlt, hp, ht⟩ := Reading.andThen_result h
  obtain ⟨us, t, rfl, hd, hv, ha⟩ := primary_sound hp
  rw [Reading.widen_result] at ht
  exact powerTail_sound hd hv ha ht
termination_by (ts.length, 4)

theorem powerTail_sound {us ts rest : List Token} {t : Tree} {base v : V}
    (hd : Derives .primary us t) (hv : t.value alg = some base) (ha : ending.Allows ts)
    (h : (powerTail alg ending base ts).result = some (v, rest)) :
    Finds alg ending .power (us ++ ts) v rest := by
  match ts with
  | [] =>
    rw [powerTail] at h
    cases h
    exact .of_derives (.primary hd) hv ha
  | o :: ts =>
    rw [powerTail] at h
    split at h
    · rename_i ho
      obtain ⟨-, h⟩ := past_result h
      obtain ⟨x, rest', hlt, hp, ht⟩ := Reading.andThen_result h
      obtain ⟨vs, r, rfl, hr, hw, hb⟩ := unary_sound hp
      cases ht
      exact ⟨us ++ o :: vs, .pow t r, by simp, .pow hd ho hr, by simp [Tree.value, hv, hw], hb⟩
    · cases h
      exact .of_derives (.primary hd) hv ha
termination_by (ts.length, 0)

theorem primary_sound {ts rest : List Token} {v : V}
    (h : (primary alg ending ts).result = some (v, rest)) :
    Finds alg ending .primary ts v rest := by
  match ts with
  | [] =>
    rw [primary] at h
    simp at h
  | t :: ts =>
    rw [primary] at h
    split at h
    · rename_i hk
      obtain ⟨ha, h⟩ := past_result h
      cases h
      exact ⟨[t], .number t.lexeme, rfl, .number hk, rfl, ha⟩
    · rename_i hk
      obtain ⟨ha, h⟩ := past_result h
      exact named_sound hk ha h
    · rename_i hk
      obtain ⟨ha, h⟩ := past_result h
      obtain ⟨w, rest', hlt, hp, ht⟩ := Reading.andThen_result h
      obtain ⟨us, t', rfl, hd, hv, hb⟩ := sum_sound hp
      obtain ⟨_, rest'', hlt', hc, ht⟩ := Reading.andThen_result ht
      obtain ⟨c, rfl, hck, hb'⟩ := close_result hc
      cases ht
      exact ⟨t :: (us ++ [c]), .group t', by simp, .group hk hd hck, by simp [Tree.value, hv], hb'⟩
    · simp at h
termination_by (ts.length, 3)

theorem named_sound {name : Token} {ts rest : List Token} {v : V}
    (hn : name.kind = .identifier) (ha : ending.Allows ts)
    (h : (named alg ending name ts).result = some (v, rest)) :
    Finds alg ending .primary (name :: ts) v rest := by
  match ts with
  | [] =>
    rw [named] at h
    exact value_sound hn ha h
  | o :: ts =>
    rw [named] at h
    split at h
    · rename_i ho
      obtain ⟨-, h⟩ := past_result h
      rw [Reading.widen_result] at h
      exact arguments_sound hn ho h
    · exact value_sound hn ha h
termination_by (ts.length, 0)

theorem arguments_sound {name o : Token} {ts rest : List Token} {v : V}
    (hn : name.kind = .identifier) (ho : o.kind = .leftParen)
    (h : (arguments alg ending name ts).result = some (v, rest)) :
    Finds alg ending .primary (name :: o :: ts) v rest := by
  match ts with
  | [] =>
    rw [arguments] at h
    simp at h
  | t :: ts =>
    rw [arguments] at h
    split at h
    · obtain ⟨c, hts, hc, hv, hb⟩ := apply_sound h
      rw [hts]
      exact ⟨[name, o, c], .call name.lexeme [], rfl, .emptyCall hn ho hc, hv, hb⟩
    · obtain ⟨w, rest', hlt, hp, ht⟩ := Reading.andThen_result h
      obtain ⟨us, t', hts, hd, hv, hb⟩ := sum_sound hp
      rw [Reading.widen_result] at ht
      obtain ⟨vs, args, ws, c, rfl, hargs, hws, hc, hcall, hb⟩ := argumentsTail_sound [] hd hv ht
      refine ⟨name :: o :: (us ++ vs ++ [c]), .call name.lexeme args, by simp [hts],
        .call hn ho hargs hc, ?_, hb⟩
      rw [Tree.value, hws]
      exact hcall
termination_by (ts.length, 8)

theorem argumentsTail_sound {name : Token} (args : List V) {us ts rest : List Token} {t : Tree}
    {w v : V} (hd : Derives .sum us t) (hw : t.value alg = some w)
    (h : (argumentsTail alg ending name (args ++ [w]) ts).result = some (v, rest)) :
    FindsArguments alg ending name args us ts v rest := by
  match ts with
  | [] =>
    rw [argumentsTail] at h
    exact .last hd hw h
  | o :: ts =>
    rw [argumentsTail] at h
    split at h
    · rename_i ho
      obtain ⟨-, h⟩ := past_result h
      obtain ⟨x, rest', hlt, hp, ht⟩ := Reading.andThen_result h
      obtain ⟨us', t', rfl, hd', hx, hb⟩ := sum_sound hp
      rw [Reading.widen_result] at ht
      exact .cons hd hw ho (argumentsTail_sound _ hd' hx ht)
    · exact .last hd hw h
termination_by (ts.length, 0)

end

end
end QuantumOps.Expression
