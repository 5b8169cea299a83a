import QuantumOps.Proofs.Expression.Simulation
import QuantumOps.Proofs.Expression.Spelling

/-! What a failure says about the tokens passed before it: they can be completed to a phrase, and
they hold the reason that the failure gives. The proofs follow those of soundness, which tell what
stands before a phrase that fails. -/
namespace QuantumOps.Expression

/-- What a reading fails with. -/
def Reading.failure {V : Type} {n : Nat} : Reading V n → Option (Error × List Token)
  | done _ _ _ => none
  | failed e rest => some (e, rest)

/-- A phrase of the kind starts with the tokens. -/
def Viable (p : Phrase) (us : List Token) : Prop := ∃ more t, Derives p (us ++ more) t

section
variable {V W : Type} {m n : Nat} {ending : Ending} {ts : List Token} {p : Error × List Token}

@[simp] theorem Reading.done_failure (v : V) (h : ts.length < n) :
    (done v ts h).failure = none := rfl

@[simp] theorem Reading.failed_failure (e : Error) :
    (failed e ts : Reading V n).failure = some (e, ts) := rfl

@[simp] theorem Reading.widen_failure (r : Reading V m) (h : m ≤ n) :
    (r.widen h).failure = r.failure := by
  cases r <;> rfl

theorem Reading.andThen_failure {r : Reading V m}
    {next : V → (rest : List Token) → rest.length < m → Reading W n}
    (h : (r.andThen next).failure = some p) : r.failure = some p ∨
      ∃ v rest hlt, r.result = some (v, rest) ∧ (next v rest hlt).failure = some p := by
  cases r with
  | done v rest hlt => exact .inr ⟨v, rest, hlt, rfl, h⟩
  | failed e rest => exact .inl h

theorem past_failure {next : Reading V n} (h : (past ending ts next).failure = some p) :
    (ts = [] ∧ ∃ cause column, ending = .fault cause column ∧ p = (.lexical cause column, [])) ∨
      ending.Allows ts ∧ next.failure = some p := by
  unfold past at h
  split at h
  · cases h
    exact .inl ⟨rfl, _, _, rfl, rfl⟩
  · rename_i hne
    refine .inr ⟨fun hts => ?_, h⟩
    cases ending with
    | endOfText column => exact ⟨column, rfl⟩
    | fault cause column => exact (hne cause column hts rfl).elim

end

section
variable {p q : Phrase} {us vs : List Token} {o : Token} {l : Tree}

/-- A sum goes on with another term after a plus or a minus. -/
theorem Derives.term {r : Tree} (hl : Derives .sum us l) (ho : o.kind = .plus ∨ o.kind = .minus)
    (hr : Derives .product vs r) :
    Derives .sum (us ++ [o] ++ vs) (if o.kind = .plus then .add l r else .sub l r) := by
  rw [List.append_assoc]
  rcases ho with ho | ho
  · rw [if_pos ho]
    exact .add hl ho hr
  · rw [if_neg (by simp [ho])]
    exact .sub hl ho hr

theorem Derives.factor {r : Tree} (hl : Derives .product us l)
    (ho : o.kind = .star ∨ o.kind = .slash) (hr : Derives .unary vs r) :
    Derives .product (us ++ [o] ++ vs) (if o.kind = .star then .mul l r else .div l r) := by
  rw [List.append_assoc]
  rcases ho with ho | ho
  · rw [if_pos ho]
    exact .mul hl ho hr
  · rw [if_neg (by simp [ho])]
    exact .div hl ho hr

theorem Derives.signed (hl : Derives .unary vs l) (ho : o.kind = .minus ∨ o.kind = .plus) :
    Derives .unary ([o] ++ vs) (if o.kind = .minus then .neg l else .pos l) := by
  rcases ho with ho | ho
  · rw [if_pos ho]
    exact .neg ho hl
  · rw [if_neg (by simp [ho])]
    exact .pos ho hl

theorem Derives.viable {t : Tree} (h : Derives p us t) : Viable p us :=
  ⟨[], t, by rwa [List.append_nil]⟩

/-- A phrase starts with no tokens: some number is one. -/
theorem Viable.nil (p : Phrase) : Viable p [] :=
  ⟨[⟨.number, "1", 0⟩], _, (Derives.number rfl).mono p.primary_le⟩

theorem Viable.mono (hpq : p ≤ q) (h : Viable p us) : Viable q us := by
  obtain ⟨more, t, hd⟩ := h
  exact ⟨more, t, hd.mono hpq⟩

theorem Viable.of_append (us : List Token) (h : Viable p (us ++ vs)) : Viable p us := by
  obtain ⟨more, t, hd⟩ := h
  rw [List.append_assoc] at hd
  exact ⟨vs ++ more, t, hd⟩

/-- What can be completed can be completed as a part of a larger phrase. -/
theorem Viable.after {pre : List Token} (hf : ∀ {ws t}, Derives q ws t → Viable p (pre ++ ws))
    (h : Viable q vs) : Viable p (pre ++ vs) := by
  obtain ⟨more, t, hd⟩ := h
  have hv := hf hd
  rw [← List.append_assoc] at hv
  exact hv.of_append _

/-- The tokens before a part that can be completed can be completed too. -/
theorem Viable.before {pre : List Token} (hf : ∀ {ws t}, Derives q ws t → Viable p (pre ++ ws)) :
    Viable p pre :=
  ((Viable.nil q).after hf).of_append _

/-- One more argument. -/
theorem DerivesArgs.snoc {us : List Token} {args : List Tree} {t : Tree} : DerivesArgs us args →
    o.kind = .comma → Derives .sum vs t → DerivesArgs (us ++ o :: vs) (args ++ [t])
  | .last hu, ho, ht => .cons hu ho (.last ht)
  | .cons hu ho' hargs, ho, ht => by
    simpa using DerivesArgs.cons hu ho' (hargs.snoc ho ht)

end

section
variable {V : Type} (alg : Algebra V) (ending : Ending)

theorem Tree.values_snoc {t : Tree} {v : V} (ht : t.value alg = some v) : ∀ {ts : List Tree}
    {vs : List V}, Tree.values alg ts = some vs → Tree.values alg (ts ++ [t]) = some (vs ++ [v])
  | [], vs, h => by
    cases h
    simp [values, ht]
  | u :: ts, vs, h => by
    obtain ⟨w, hw, h⟩ := Option.bind_eq_some_iff.mp h
    obtain ⟨ws, hws, rfl⟩ := Option.map_eq_some_iff.mp h
    rw [List.cons_append, values, hw, values_snoc ht hws]
    rfl

/-- The tokens passed, and those from the one in sight on, hold the reason for the failure. -/
def Cause (seen rest : List Token) : Error → Prop
  | .lexical cause column => rest = [] ∧ ending = .fault cause column
  | .unexpected _ none column => rest = [] ∧ ending = .endOfText column
  | .unexpected _ (some lexeme) column => ∃ t ∈ rest.head?, t.lexeme = lexeme ∧ t.column = column
  | .unset name column => ∃ before t, seen = before ++ [t] ∧ t.kind = .identifier ∧
      t.lexeme = name ∧ t.column = column ∧ Uncalled rest ∧ alg.name name = none
  | .unknownFunction name arity column => ∃ before f o after args vs,
      seen = before ++ f :: o :: after ∧ f.kind = .identifier ∧ o.kind = .leftParen ∧
      f.lexeme = name ∧ f.column = column ∧ Derives .primary (f :: o :: after) (.call name args) ∧
      Tree.values alg args = some vs ∧ vs.length = arity ∧ alg.call name vs = none
  | .zeroDivisor column => ∃ before o after t x y, seen = before ++ o :: after ∧
      o.kind = .slash ∧ o.column = column ∧ Derives .unary after t ∧ t.value alg = some y ∧
      alg.div x y = none
  | _ => False

/-- Reading a phrase of the kind fails right after tokens that such a phrase starts with. -/
def Fails (p : Phrase) (ts : List Token) (e : Error) (rest : List Token) : Prop :=
  ∃ seen, ts = seen ++ rest ∧ Viable p seen ∧ Cause alg ending seen rest e

variable {alg ending} {p q : Phrase} {ts rest seen : List Token} {e : Error}

theorem Cause.after (pre : List Token) (h : Cause alg ending seen rest e) :
    Cause alg ending (pre ++ seen) rest e := by
  match e, h with
  | .lexical .., h => exact h
  | .unexpected _ none _, h => exact h
  | .unexpected _ (some _) _, h => exact h
  | .unset .., ⟨before, t, hseen, h⟩ =>
    exact ⟨pre ++ before, t, by rw [hseen, List.append_assoc], h⟩
  | .unknownFunction .., ⟨before, f, o, after, args, vs, hseen, h⟩ =>
    exact ⟨pre ++ before, f, o, after, args, vs, by rw [hseen, List.append_assoc], h⟩
  | .zeroDivisor .., ⟨before, o, after, t, x, y, hseen, h⟩ =>
    exact ⟨pre ++ before, o, after, t, x, y, by rw [hseen, List.append_assoc], h⟩

theorem Fails.mono (hpq : p ≤ q) (h : Fails alg ending p ts e rest) :
    Fails alg ending q ts e rest := by
  obtain ⟨seen, hts, hv, hc⟩ := h
  exact ⟨seen, hts, hv.mono hpq, hc⟩

/-- A phrase fails within a larger one as it does alone. -/
theorem Fails.after {pre : List Token} (hf : ∀ {ws t}, Derives q ws t → Viable p (pre ++ ws))
    (h : Fails alg ending q ts e rest) : Fails alg ending p (pre ++ ts) e rest := by
  obtain ⟨seen, rfl, hv, hc⟩ := h
  exact ⟨pre ++ seen, by rw [List.append_assoc], hv.after hf, hc.after pre⟩

/-- Either the text breaks off where the next token is wanted, or reading goes on and fails. -/
theorem past_fails (seen : List Token) {W : Type} {n : Nat} {next : Reading W n}
    (hv : Viable p seen) (h : (past ending ts next).failure = some (e, rest))
    (hn : ending.Allows ts → next.failure = some (e, rest) →
      Fails alg ending p (seen ++ ts) e rest) : Fails alg ending p (seen ++ ts) e rest := by
  rcases past_failure h with ⟨rfl, cause, column, hend, hp⟩ | ⟨ha, h⟩
  · cases hp
    exact ⟨seen, rfl, hv, rfl, hend⟩
  · exact hn ha h

theorem missing_fails (seen : List Token) {W : Type} {n : Nat} {wanted : Wanted}
    (hv : Viable p seen) (ha : ending.Allows ts)
    (h : (missing wanted ending ts : Reading W n).failure = some (e, rest)) :
    Fails alg ending p (seen ++ ts) e rest := by
  cases ts with
  | nil =>
    cases h
    obtain ⟨column, hend⟩ := ha rfl
    exact ⟨seen, rfl, hv, rfl, by rw [hend]; rfl⟩
  | cons t ts =>
    cases h
    exact ⟨seen, rfl, hv, t, rfl, rfl, rfl⟩

theorem close_fails {wanted : Wanted}
    (hc : ∀ c : Token, c.kind = .rightParen → Viable p (seen ++ [c])) (ha : ending.Allows ts)
    (h : (close ending wanted ts).failure = some (e, rest)) :
    Fails alg ending p (seen ++ ts) e rest := by
  have hv : Viable p seen := (hc ⟨.rightParen, ")", 0⟩ rfl).of_append _
  cases ts with
  | nil => exact missing_fails seen hv ha h
  | cons c ts =>
    rw [close] at h
    split at h
    · rename_i hk
      have hf : Fails alg ending p (seen ++ [c] ++ ts) e rest :=
        past_fails _ (hc c hk) h fun _ h => by cases h
      rwa [List.append_assoc] at hf
    · exact missing_fails seen hv ha h

theorem value_fails {name : Token} {n : Nat} {h : ts.length < n} (hk : name.kind = .identifier)
    (hu : Uncalled ts) (hf : (value alg name ts h).failure = some (e, rest)) :
    Fails alg ending .primary (name :: ts) e rest := by
  unfold value at hf
  split at hf
  · cases hf
  · rename_i hnone
    cases hf
    exact ⟨[name], rfl, (Derives.name hk).viable, [], name, rfl, hk, rfl, rfl, hu, hnone⟩

/-- A call whose arguments have been read fails where it is not closed, or as a whole. -/
theorem apply_fails {name o : Token} (us : List Token) {args : List Tree} {vs : List V}
    (hk : name.kind = .identifier) (ho : o.kind = .leftParen)
    (hc : ∀ c : Token, c.kind = .rightParen →
      Derives .primary (name :: o :: (us ++ [c])) (.call name.lexeme args))
    (hvs : Tree.values alg args = some vs) (ha : ending.Allows ts)
    (h : (apply alg ending name vs ts).failure = some (e, rest)) :
    Fails alg ending .primary (name :: o :: us ++ ts) e rest := by
  rcases Reading.andThen_failure h with h | ⟨_, rest', hlt, hclose, h⟩
  · exact close_fails (fun c hk => (hc c hk).viable) ha h
  · obtain ⟨c, rfl, hck, -⟩ := close_result hclose
    split at h
    · cases h
    · rename_i hnone
      cases h
      exact ⟨name :: o :: (us ++ [c]), by simp, (hc c hck).viable, [], name, o, us ++ [c], args, vs,
        rfl, hk, ho, rfl, rfl, hc c hck, hvs, rfl, hnone⟩

mutual

theorem sum_fails {ts rest : List Token} {e : Error} (ha : ending.Allows ts)
    (h : (sum alg ending ts).failure = some (e, rest)) : Fails alg ending .sum ts e rest := by
  rw [sum] at h
  rcases Reading.andThen_failure h with h | ⟨left, rest', hlt, hp, h⟩
  · exact (product_fails ha h).mono (by decide)
  · obtain ⟨us, t, rfl, hd, hv, ha⟩ := product_sound hp
    rw [Reading.widen_failure] at h
    exact sumTail_fails (.product hd) ha h
termination_by (ts.length, 7)

theorem sumTail_fails {us ts rest : List Token} {e : Error} {t : Tree} {left : V}
    (hd : Derives .sum us t) (ha : ending.Allows ts)
    (h : (sumTail alg ending left ts).failure = some (e, rest)) :
    Fails alg ending .sum (us ++ ts) e rest := by
  match ts with
  | [] =>
    rw [sumTail] at h
    cases h
  | o :: ts =>
    rw [sumTail] at h
    split at h
    · rename_i ho
      have hf : Fails alg ending .sum (us ++ [o] ++ ts) e rest := by
        refine past_fails _ (.before fun hr => (hd.term ho hr).viable) h fun ha h => ?_
        rcases Reading.andThen_failure h with h | ⟨right, rest', hlt, hp, h⟩
        · exact (product_fails ha h).after fun hr => (hd.term ho hr).viable
        · obtain ⟨vs, r, rfl, hr, hw, ha⟩ := product_sound hp
          rw [Reading.widen_failure] at h
          rw [← List.append_assoc]
          exact sumTail_fails (hd.term ho hr) ha h
      rwa [List.append_assoc] at hf
    · cases h
termination_by (ts.length, 0)

theorem product_fails {ts rest : List Token} {e : Error} (ha : ending.Allows ts)
    (h : (product alg ending ts).failure = some (e, rest)) :
    Fails alg ending .product ts e rest := by
  rw [product] at h
  rcases Reading.andThen_failure h with h | ⟨left, rest', hlt, hp, h⟩
  · exact (unary_fails ha h).mono (by decide)
  · obtain ⟨us, t, rfl, hd, hv, ha⟩ := unary_sound hp
    rw [Reading.widen_failure] at h
    exact productTail_fails (.unary hd) ha h
termination_by (ts.length, 6)

theorem productTail_fails {us ts rest : List Token} {e : Error} {t : Tree} {left : V}
    (hd : Derives .product us t) (ha : ending.Allows ts)
    (h : (productTail alg ending left ts).failure = some (e, rest)) :
    Fails alg ending .product (us ++ ts) e rest := by
  match ts with
  | [] =>
    rw [productTail] at h
    cases h
  | o :: ts =>
    rw [productTail] at h
    split at h
    · rename_i ho
      have hf : Fails alg ending .product (us ++ [o] ++ ts) e rest := by
        refine past_fails _ (.before fun hr => (hd.factor ho hr).viable) h fun ha h => ?_
        rcases Reading.andThen_failure h with h | ⟨right, rest', hlt, hp, h⟩
        · exact (unary_fails ha h).after fun hr => (hd.factor ho hr).viable
        · obtain ⟨vs, r, rfl, hr, hw, ha⟩ := unary_sound hp
          rw [← List.append_assoc]
          split at h
          · rw [Reading.widen_failure] at h
            exact productTail_fails (hd.factor ho hr) ha h
          · rename_i hnone
            cases h
            -- only a quotient can be without a meaning
            rcases ho with hs | hs
            · rw [if_pos hs] at hnone
              cases hnone
            · rw [if_neg (by simp [hs])] at hnone
              exact ⟨us ++ [o] ++ vs, rfl, (hd.factor (.inr hs) hr).viable, us, o, vs, r, left,
                right, by simp, hs, rfl, hr, hw, hnone⟩
      rwa [List.append_assoc] at hf
    · cases h
termination_by (ts.length, 0)

theorem unary_fails {ts rest : List Token} {e : Error} (ha : ending.Allows ts)
    (h : (unary alg ending ts).failure = some (e, rest)) : Fails alg ending .unary ts e rest := by
  match ts with
  | [] =>
    rw [unary] at h
    exact missing_fails [] (.nil .unary) ha h
  | o :: ts =>
    rw [unary] at h
    split at h
    · rename_i ho
      refine past_fails [o] (.before fun hr => (hr.signed ho).viable) h fun ha h => ?_
      rcases Reading.andThen_failure h with h | ⟨v, rest', hlt, hp, h⟩
      · exact (unary_fails ha h).after fun hr => (hr.signed ho).viable
      · cases h
    · exact (power_fails ha h).mono (by decide)
termination_by (ts.length, 5)

theorem power_fails {ts rest : List Token} {e : Error} (ha : ending.Allows ts)
    (h : (power alg ending ts).failure = some (e, rest)) : Fails alg ending .power ts e rest := by
  rw [power] at h
  rcases Reading.andThen_failure h with h | ⟨base, rest', hlt, hp, h⟩
  · exact (primary_fails ha h).mono (by decide)
  · obtain ⟨us, t, rfl, hd, hv, ha⟩ := primary_sound hp
    rw [Reading.widen_failure] at h
    exact powerTail_fails hd ha h
termination_by (ts.length, 4)

theorem powerTail_fails {us ts rest : List Token} {e : Error} {t : Tree} {base : V}
    (hd : Derives .primary us t) (ha : ending.Allows ts)
    (h : (powerTail alg ending base ts).failure = some (e, rest)) :
    Fails alg ending .power (us ++ ts) e rest := by
  match ts with
  | [] =>
    rw [powerTail] at h
    cases h
  | o :: ts =>
    rw [powerTail] at h
    split at h
    · rename_i ho
      have hop : ∀ {vs r}, Derives .unary vs r → Derives .power (us ++ [o] ++ vs) (.pow t r) := by
        intro vs r hr
        rw [List.append_assoc]
        exact .pow hd ho hr
      have hf : Fails alg ending .power (us ++ [o] ++ ts) e rest := by
        refine past_fails _ (.before fun hr => (hop hr).viable) h fun ha h => ?_
        rcases Reading.andThen_failure h with h | ⟨exponent, rest', hlt, hp, h⟩
        · exact (unary_fails ha h).after fun hr => (hop hr).viable
        · cases h
      rwa [List.append_assoc] at hf
    · cases h
termination_by (ts.length, 0)

theorem primary_fails {ts rest : List Token} {e : Error} (ha : ending.Allows ts)
    (h : (primary alg ending ts).failure = some (e, rest)) :
    Fails alg ending .primary ts e rest := by
  match ts with
  | [] =>
    rw [primary] at h
    exact missing_fails [] (.nil .primary) ha h
  | t :: ts =>
    rw [primary] at h
    split at h
    · rename_i hk
      exact past_fails [t] (Derives.number hk).viable h fun _ h => by cases h
    · rename_i hk
      exact past_fails [t] (Derives.name hk).viable h fun ha h => named_fails hk ha h
    · rename_i hk
      have hgroup : ∀ {vs r}, Derives .sum vs r → Viable .primary ([t] ++ vs) := fun hr =>
        (Derives.group (c := ⟨.rightParen, ")", 0⟩) hk hr rfl).viable.of_append (t :: _)
      refine past_fails [t] (.before hgroup) h fun ha h => ?_
      rcases Reading.andThen_failure h with h | ⟨v, rest', hlt, hp, h⟩
      · exact (sum_fails ha h).after hgroup
      · obtain ⟨us, r, rfl, hr, hv, ha⟩ := sum_sound hp
        rcases Reading.andThen_failure h with h | ⟨_, last, hlt', hc, h⟩
        · rw [← List.append_assoc]
          exact close_fails (fun c hc => (Derives.group hk hr hc).viable) ha h
        · cases h
    · exact missing_fails [] (.nil .primary) ha h
termination_by (ts.length, 3)

theorem named_fails {name : Token} {ts rest : List Token} {e : Error}
    (hk : name.kind = .identifier) (ha : ending.Allows ts)
    (h : (named alg ending name ts).failure = some (e, rest)) :
    Fails alg ending .primary (name :: ts) e rest := by
  match ts with
  | [] =>
    rw [named] at h
    exact value_fails hk (by simp [Uncalled]) h
  | o :: ts =>
    rw [named] at h
    split at h
    · rename_i ho
      have hv : Viable .primary [name, o] := (Derives.emptyCall (c := ⟨.rightParen, ")", 0⟩) hk ho
        rfl).viable.of_append [name, o]
      refine past_fails [name, o] hv h fun ha h => ?_
      rw [Reading.widen_failure] at h
      exact arguments_fails hk ho ha h
    · rename_i ho
      exact value_fails hk (by simpa [Uncalled] using ho) h
termination_by (ts.length, 0)

theorem arguments_fails {name o : Token} {ts rest : List Token} {e : Error}
    (hk : name.kind = .identifier) (ho : o.kind = .leftParen) (ha : ending.Allows ts)
    (h : (arguments alg ending name ts).failure = some (e, rest)) :
    Fails alg ending .primary (name :: o :: ts) e rest := by
  have hcall : ∀ {vs r}, Derives .sum vs r → Viable .primary ([name, o] ++ vs) := fun hr =>
    (Derives.call (c := ⟨.rightParen, ")", 0⟩) hk ho (.last hr) rfl).viable.of_append
      (name :: o :: _)
  match ts with
  | [] =>
    rw [arguments] at h
    exact missing_fails [name, o] (.before hcall) ha h
  | t :: ts =>
    rw [arguments] at h
    split at h
    · exact apply_fails [] hk ho (fun c hc => .emptyCall hk ho hc) rfl ha h
    · rcases Reading.andThen_failure h with h | ⟨v, rest', hlt, hp, h⟩
      · exact (sum_fails ha h).after hcall
      · obtain ⟨us, r, hts, hr, hv, ha⟩ := sum_sound hp
        rw [Reading.widen_failure] at h
        rw [hts]
        exact argumentsTail_fails hk ho (.last hr) (by simp [Tree.values, hv]) ha h
termination_by (ts.length, 8)

theorem argumentsTail_fails {name o : Token} {us ts rest : List Token} {e : Error}
    {args : List Tree} {vs : List V} (hk : name.kind = .identifier) (ho : o.kind = .leftParen)
    (hargs : DerivesArgs us args) (hvs : Tree.values alg args = some vs) (ha : ending.Allows ts)
    (h : (argumentsTail alg ending name vs ts).failure = some (e, rest)) :
    Fails alg ending .primary (name :: o :: us ++ ts) e rest := by
  match ts with
  | [] =>
    rw [argumentsTail] at h
    exact apply_fails us hk ho (fun c hc => .call hk ho hargs hc) hvs ha h
  | t :: ts =>
    rw [argumentsTail] at h
    split at h
    · rename_i ht
      have hcall : ∀ {ws r}, Derives .sum ws r →
          Viable .primary (name :: o :: us ++ [t] ++ ws) := by
        intro ws r hr
        have hv := (Derives.call (c := ⟨.rightParen, ")", 0⟩) hk ho (hargs.snoc ht hr) rfl).viable
        have hv := hv.of_append (name :: o :: (us ++ t :: ws))
        simpa using hv
      have hf : Fails alg ending .primary (name :: o :: us ++ [t] ++ ts) e rest := by
        refine past_fails _ (.before hcall) h fun ha h => ?_
        rcases Reading.andThen_failure h with h | ⟨v, rest', hlt, hp, h⟩
        · exact (sum_fails ha h).after hcall
        · obtain ⟨ws, r, rfl, hr, hv, ha⟩ := sum_sound hp
          rw [Reading.widen_failure] at h
          have hvs' : Tree.values alg (args ++ [r]) = some (vs ++ [v]) :=
            Tree.values_snoc alg hv hvs
          have hf := argumentsTail_fails hk ho (hargs.snoc ht hr) hvs' ha h
          simpa using hf
      rwa [List.append_assoc] at hf
    · exact apply_fails us hk ho (fun c hc => .call hk ho hargs hc) hvs ha h
termination_by (ts.length, 0)

end

end
end QuantumOps.Expression
