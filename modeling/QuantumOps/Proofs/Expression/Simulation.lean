import Mathlib.Data.List.Forall2
import QuantumOps.Proofs.Expression.Progress
import QuantumOps.Proofs.Expression.Completeness
import QuantumOps.Proofs.Expression.Lexing

/-! Two readings side by side, of texts that are alike up to an entry and with meanings that go
together. As long as the first has no later entry in sight, the second does the same: both find
meanings that go together, or both fail alike. -/
namespace QuantumOps.Expression

/-- The same failure in another column. -/
def Error.inColumn (column : Nat) : Error → Error
  | lexical cause _ => lexical cause column
  | unexpected wanted found _ => unexpected wanted found column
  | unset name _ => unset name column
  | unknownFunction name arity _ => unknownFunction name arity column
  | zeroDivisor _ => zeroDivisor column
  | dividedByZero dividend => dividedByZero dividend
  | notFinite expression => notFinite expression
  | symbolic expression => symbolic expression

@[simp] theorem Error.inColumn_kind (e : Error) (column : Nat) :
    (e.inColumn column).kind = e.kind := by
  cases e <;> rfl

@[simp] theorem Error.inColumn_column (e : Error) : e.inColumn e.column = e := by
  cases e <;> rfl

/-- The failure lies in the text, whatever its parts mean. -/
def Error.OfText (e : Error) : Prop := e.kind = .lexical ∨ e.kind = .grammar

/-- No opening parenthesis follows. -/
def Uncalled (rest : List Token) : Prop := ∀ t ∈ rest.head?, t.kind ≠ .leftParen

/-- What is asked of two texts and of what they mean: how their columns go together, which names are
looked at, whether what has no meaning on the one side has none on the other, how many tokens the
first text has from the last entry on that the two have in common, and how the texts end. -/
structure Comparison where
  columns : Nat → Nat → Prop
  names : String → Prop
  strict : Prop
  common : Nat
  ending : Ending
  ending' : Ending

/-- The tokens are the same but for their columns. -/
structure Token.Alike (columns : Nat → Nat → Prop) (t t' : Token) : Prop where
  kind : t'.kind = t.kind
  lexeme : t'.lexeme = t.lexeme
  column : columns t.column t'.column

/-- The endings are the same but for their columns. -/
inductive Ending.Alike (columns : Nat → Nat → Prop) : Ending → Ending → Prop
  | endOfText {c c' : Nat} (h : columns c c') : Alike columns (.endOfText c) (.endOfText c')
  | fault {cause : LexicalFault} {c c' : Nat} (h : columns c c') :
      Alike columns (.fault cause c) (.fault cause c')

theorem Ending.Alike.column {columns : Nat → Nat → Prop} {e e' : Ending}
    (h : e.Alike columns e') : columns e.column e'.column := by
  cases h with
  | endOfText h => exact h
  | fault h => exact h

/-- The failures are the same but for their columns. -/
def Error.Alike (columns : Nat → Nat → Prop) (e e' : Error) : Prop :=
  ∃ column, e' = e.inColumn column ∧ columns e.column column

namespace Comparison

/-- What the two sides mean: the second has a meaning wherever the first has one, one that goes
together with it, and if the comparison is strict it has no other. -/
def Meets {V W : Type} (cmp : Comparison) (R : V → W → Prop) (o : Option V) (o' : Option W) :
    Prop :=
  (∀ v, o = some v → ∃ w, o' = some w ∧ R v w) ∧ (cmp.strict → o = none → o' = none)

/-- The tokens are alike as far as the last entry in common. -/
inductive Same (cmp : Comparison) : List Token → List Token → Prop
  | ended (hk : cmp.common = 0) (he : cmp.ending.Alike cmp.columns cmp.ending') : Same cmp [] []
  | last {t t' : Token} {ts ts' : List Token} (ht : t.Alike cmp.columns t')
      (hk : (t :: ts).length = cmp.common) : Same cmp (t :: ts) (t' :: ts')
  | cons {t t' : Token} {ts ts' : List Token} (ht : t.Alike cmp.columns t')
      (hn : t.kind = .identifier → Uncalled ts → cmp.names t.lexeme) (hs : Same cmp ts ts') :
      Same cmp (t :: ts) (t' :: ts')

/-- The second reading comes to what the first comes to, unless this has gone past the last entry in
common. -/
inductive Agrees {V W : Type} {m n : Nat} (cmp : Comparison) (R : V → W → Prop) :
    Reading V m → Reading W n → Prop
  | beyond {r : Reading V m} {r' : Reading W n} (h : r.left.length < cmp.common) : Agrees cmp R r r'
  | done {v : V} {w : W} {ts ts' : List Token} {h : ts.length < m} {h' : ts'.length < n}
      (hv : R v w) (hs : cmp.Same ts ts') : Agrees cmp R (.done v ts h) (.done w ts' h')
  | failed {e e' : Error} {ts ts' : List Token} (he : e.Alike cmp.columns e') :
      Agrees cmp R (.failed e ts) (.failed e' ts')
  | meaning {e : Error} {ts : List Token} {r' : Reading W n} (hs : ¬ cmp.strict)
      (he : ¬ e.OfText) : Agrees cmp R (.failed e ts) r'

end Comparison

/-- The meanings of the two sides go together. -/
structure Simulates {V W : Type} (cmp : Comparison) (R : V → W → Prop) (alg : Algebra V)
    (alg' : Algebra W) : Prop where
  number : ∀ s, R (alg.number s) (alg'.number s)
  name : ∀ n, cmp.names n → cmp.Meets R (alg.name n) (alg'.name n)
  call : ∀ n vs ws, List.Forall₂ R vs ws → cmp.Meets R (alg.call n vs) (alg'.call n ws)
  group : ∀ v w, R v w → R (alg.group v) (alg'.group w)
  pos : ∀ v w, R v w → R (alg.pos v) (alg'.pos w)
  neg : ∀ v w, R v w → R (alg.neg v) (alg'.neg w)
  add : ∀ v w x y, R v w → R x y → R (alg.add v x) (alg'.add w y)
  sub : ∀ v w x y, R v w → R x y → R (alg.sub v x) (alg'.sub w y)
  mul : ∀ v w x y, R v w → R x y → R (alg.mul v x) (alg'.mul w y)
  div : ∀ v w x y, R v w → R x y → cmp.Meets R (alg.div v x) (alg'.div w y)
  pow : ∀ v w x y, R v w → R x y → R (alg.pow v x) (alg'.pow w y)

section
variable {V W V' W' : Type} {cmp : Comparison} {R : V → W → Prop} {S : V' → W' → Prop}
  {m n m' n' : Nat} {t : Token} {ts us : List Token}

namespace Comparison

theorem Meets.of_some {v : V} {w : W} (h : R v w) : cmp.Meets R (some v) (some w) := by
  refine ⟨fun v' hv => ?_, fun _ hv => by cases hv⟩
  cases hv
  exact ⟨w, rfl, h⟩

theorem Meets.refl (o : Option V) : cmp.Meets Eq o o :=
  ⟨fun v hv => ⟨v, hv, rfl⟩, fun _ hv => hv⟩

theorem Same.exists_cons (h : cmp.Same (t :: ts) us) : ∃ t' ts', us = t' :: ts' ∧
    t.Alike cmp.columns t' ∧ (cmp.Same ts ts' ∧
      (t.kind = .identifier → Uncalled ts → cmp.names t.lexeme) ∨ ts.length < cmp.common) := by
  cases h with
  | last ht hk => exact ⟨_, _, rfl, ht, .inr (by rw [← hk]; exact Nat.lt_succ_self _)⟩
  | cons ht hn hs => exact ⟨_, _, rfl, ht, .inl ⟨hs, hn⟩⟩

theorem Agrees.andThen {r : Reading V m} {r' : Reading W m'}
    {next : V → (rest : List Token) → rest.length < m → Reading V' n}
    {next' : W → (rest : List Token) → rest.length < m' → Reading W' n'}
    (h : cmp.Agrees R r r')
    (hn : ∀ v w ts us hlt hlt', R v w → cmp.Same ts us →
      cmp.Agrees S (next v ts hlt) (next' w us hlt'))
    (hl : ∀ v ts hlt, (next v ts hlt).left <:+ ts) :
    cmp.Agrees S (r.andThen next) (r'.andThen next') := by
  cases h with
  | done hv hs => exact hn _ _ _ _ _ _ hv hs
  | failed he => exact .failed he
  | meaning hs he => exact .meaning hs he
  | beyond h =>
    cases r with
    | done v ts hlt => exact .beyond (Nat.lt_of_le_of_lt (hl v ts hlt).length_le h)
    | failed e ts => exact .beyond h

theorem Agrees.widen {r : Reading V m} {r' : Reading W m'} (h : cmp.Agrees R r r') (hm : m ≤ n)
    (hm' : m' ≤ n') : cmp.Agrees R (r.widen hm) (r'.widen hm') :=
  h.andThen (fun _ _ _ _ _ _ hv hs => .done hv hs) fun _ _ _ => Reading.done_suffix _ _

theorem Agrees.andThen_widen {r : Reading V m} {r' : Reading W m'} {b b' : List Token → Nat}
    {next : V → (rest : List Token) → Reading V' (b rest)}
    {next' : W → (rest : List Token) → Reading W' (b' rest)}
    {hb : ∀ rest : List Token, rest.length < m → b rest ≤ n}
    {hb' : ∀ rest : List Token, rest.length < m' → b' rest ≤ n'} (h : cmp.Agrees R r r')
    (hn : ∀ v w ts us, ts.length < m → R v w → cmp.Same ts us →
      cmp.Agrees S (next v ts) (next' w us))
    (hl : ∀ v ts, (next v ts).left <:+ ts) :
    cmp.Agrees S (r.andThen fun v rest hlt => (next v rest).widen (hb rest hlt))
      (r'.andThen fun w rest hlt => (next' w rest).widen (hb' rest hlt)) := by
  refine h.andThen (fun v w ts us hlt hlt' hv hs => (hn v w ts us hlt hv hs).widen _ _)
    fun v ts hlt => ?_
  rw [Reading.widen_left]
  exact hl v ts

/-- Both readings go past a token, unless the first goes past the last entry in common. -/
theorem Agrees.past {next : Reading V n} {next' : Reading W n'}
    {p : Prop} (h : cmp.Same ts us ∧ p ∨ ts.length < cmp.common)
    (hn : cmp.Same ts us → p → cmp.Agrees R next next') (hl : next.left <:+ ts) :
    cmp.Agrees R (past cmp.ending ts next) (past cmp.ending' us next') := by
  rcases h with ⟨hs, hp⟩ | h
  · have hnext := hn hs hp
    cases hs with
    | ended hk he =>
      obtain ⟨columns, names, strict, common, ending, ending'⟩ := cmp
      cases he with
      | endOfText h =>
        rw [past_endOfText, past_endOfText]
        exact hnext
      | fault h => exact .failed ⟨_, rfl, h⟩
    | last | cons => exact hnext
  · exact .beyond (Nat.lt_of_le_of_lt (past_left hl).length_le h)

theorem Same.missing (wanted : Wanted) (h : cmp.Same ts us) :
    cmp.Agrees R (missing wanted cmp.ending ts : Reading V n)
      (missing wanted cmp.ending' us : Reading W n') := by
  cases h with
  | ended hk he => exact .failed ⟨_, rfl, he.column⟩
  | last ht | cons ht =>
    refine .failed ⟨_, ?_, ht.column⟩
    rw [ht.lexeme]
    rfl

theorem Same.close (wanted : Wanted) (h : cmp.Same ts us) :
    cmp.Agrees (fun _ _ => True) (close cmp.ending wanted ts) (close cmp.ending' wanted us) := by
  cases ts with
  | nil =>
    cases h with
    | ended hk he => exact Same.missing wanted (.ended hk he)
  | cons t ts =>
    obtain ⟨t', ts', rfl, ht, hnext⟩ := h.exists_cons
    rw [Expression.close, Expression.close, ht.kind]
    split
    · exact .past hnext (fun hs _ => .done trivial hs) (Reading.done_suffix _ _)
    · exact h.missing wanted

end Comparison
end

section
variable {V W : Type} {cmp : Comparison} {R : V → W → Prop} {alg : Algebra V} {alg' : Algebra W}
  {ts us : List Token}

theorem Simulates.value (sim : Simulates cmp R alg alg') {name name' : Token} {n n' : Nat}
    {h : ts.length < n} {h' : us.length < n'} (hname : name.Alike cmp.columns name')
    (hn : cmp.names name.lexeme) (hs : cmp.Same ts us) :
    cmp.Agrees R (value alg name ts h) (value alg' name' us h') := by
  have hm := sim.name name.lexeme hn
  unfold Expression.value
  rw [hname.lexeme]
  cases hv : alg.name name.lexeme with
  | some v =>
    obtain ⟨w, hw, hvw⟩ := hm.1 v hv
    rw [hw]
    exact .done hvw hs
  | none =>
    by_cases hstrict : cmp.strict
    · rw [hm.2 hstrict hv]
      exact .failed ⟨_, rfl, hname.column⟩
    · exact .meaning hstrict (by simp [Error.OfText, Error.kind])

theorem Simulates.apply (sim : Simulates cmp R alg alg') {name name' : Token} {args : List V}
    {args' : List W} (hname : name.Alike cmp.columns name') (hargs : List.Forall₂ R args args')
    (hs : cmp.Same ts us) : cmp.Agrees R (apply alg cmp.ending name args ts)
      (apply alg' cmp.ending' name' args' us) := by
  have hm := sim.call name.lexeme args args' hargs
  refine (hs.close .closingCall).andThen (fun _ _ ts us _ _ _ hs => ?_) fun _ ts _ => ?_
  · rw [hname.lexeme]
    cases hv : alg.call name.lexeme args with
    | some v =>
      obtain ⟨w, hw, hvw⟩ := hm.1 v hv
      rw [hw]
      exact .done hvw hs
    | none =>
      by_cases hstrict : cmp.strict
      · rw [hm.2 hstrict hv, ← hargs.length_eq]
        exact .failed ⟨_, rfl, hname.column⟩
      · exact .meaning hstrict (by simp [Error.OfText, Error.kind])
  · split <;> exact List.suffix_refl ts

mutual

theorem sum_agrees (sim : Simulates cmp R alg alg') {ts us : List Token} (hs : cmp.Same ts us) :
    cmp.Agrees R (sum alg cmp.ending ts) (sum alg' cmp.ending' us) := by
  rw [sum, sum]
  exact (product_agrees sim hs).andThen_widen (fun v w ts us hlt hv hs =>
    sumTail_agrees sim hv hs) (sumTail_left alg cmp.ending)
termination_by (ts.length, 7)

theorem sumTail_agrees (sim : Simulates cmp R alg alg') {v : V} {w : W} {ts us : List Token}
    (hv : R v w) (hs : cmp.Same ts us) :
    cmp.Agrees R (sumTail alg cmp.ending v ts) (sumTail alg' cmp.ending' w us) := by
  match ts with
  | [] =>
    cases hs with
    | ended hk he =>
      rw [sumTail, sumTail]
      exact .done hv (.ended hk he)
  | t :: ts =>
    obtain ⟨t', us, rfl, ht, hnext⟩ := hs.exists_cons
    rw [sumTail, sumTail, ht.kind]
    split
    · refine .past hnext (fun hs _ => ?_) (Reading.andThen_widen_left
        (product_left alg cmp.ending ts) fun x rest _ => sumTail_left alg cmp.ending _ rest)
      refine (product_agrees sim hs).andThen_widen (fun x y ts us hlt hx hs => ?_)
        fun x => sumTail_left alg cmp.ending _
      refine sumTail_agrees sim ?_ hs
      split
      · exact sim.add _ _ _ _ hv hx
      · exact sim.sub _ _ _ _ hv hx
    · exact .done hv hs
termination_by (ts.length, 0)

theorem product_agrees (sim : Simulates cmp R alg alg') {ts us : List Token}
    (hs : cmp.Same ts us) :
    cmp.Agrees R (product alg cmp.ending ts) (product alg' cmp.ending' us) := by
  rw [product, product]
  exact (unary_agrees sim hs).andThen_widen (fun v w ts us hlt hv hs =>
    productTail_agrees sim hv hs) (productTail_left alg cmp.ending)
termination_by (ts.length, 6)

theorem productTail_agrees (sim : Simulates cmp R alg alg') {v : V} {w : W} {ts us : List Token}
    (hv : R v w) (hs : cmp.Same ts us) :
    cmp.Agrees R (productTail alg cmp.ending v ts) (productTail alg' cmp.ending' w us) := by
  match ts with
  | [] =>
    cases hs with
    | ended hk he =>
      rw [productTail, productTail]
      exact .done hv (.ended hk he)
  | t :: ts =>
    obtain ⟨t', us, rfl, ht, hnext⟩ := hs.exists_cons
    rw [productTail, productTail, ht.kind]
    split
    · have hl : ∀ (x : V) (rest : List Token) (hlt : rest.length < ts.length),
          (match if t.kind = Token.Kind.star then some (alg.mul v x) else alg.div v x with
            | some y => (productTail alg cmp.ending y rest).widen (by grind)
            | none => (.failed (.zeroDivisor t.column) rest :
                Reading V ((t :: ts).length + 1))).left <:+ rest := by
        intro x rest hlt
        split
        · rw [Reading.widen_left]
          exact productTail_left alg cmp.ending _ rest
        · exact List.suffix_refl rest
      refine .past hnext (fun hs _ => ?_) (Reading.andThen_left (unary_left alg cmp.ending ts) hl)
      refine (unary_agrees sim hs).andThen (fun x y ts us hlt hlt' hx hs => ?_) hl
      have hm : cmp.Meets R (if t.kind = Token.Kind.star then some (alg.mul v x) else alg.div v x)
          (if t.kind = Token.Kind.star then some (alg'.mul w y) else alg'.div w y) := by
        split
        · exact .of_some (sim.mul _ _ _ _ hv hx)
        · exact sim.div _ _ _ _ hv hx
      cases ho : (if t.kind = Token.Kind.star then some (alg.mul v x) else alg.div v x) with
      | some z =>
        obtain ⟨z', hz', hz⟩ := hm.1 z ho
        simp only [hz']
        exact (productTail_agrees sim hz hs).widen _ _
      | none =>
        by_cases hstrict : cmp.strict
        · simp only [hm.2 hstrict ho]
          exact .failed ⟨_, rfl, ht.column⟩
        · exact .meaning hstrict (by simp [Error.OfText, Error.kind])
    · exact .done hv hs
termination_by (ts.length, 0)

theorem unary_agrees (sim : Simulates cmp R alg alg') {ts us : List Token} (hs : cmp.Same ts us) :
    cmp.Agrees R (unary alg cmp.ending ts) (unary alg' cmp.ending' us) := by
  match ts with
  | [] =>
    cases hs with
    | ended hk he =>
      rw [unary, unary]
      exact Comparison.Same.missing .operand (.ended hk he)
  | t :: ts =>
    obtain ⟨t', us, rfl, ht, hnext⟩ := hs.exists_cons
    rw [unary, unary, ht.kind]
    split
    · refine .past hnext (fun hs _ => ?_) (Reading.andThen_left (unary_left alg cmp.ending ts)
        fun _ _ _ => Reading.done_suffix _ _)
      refine (unary_agrees sim hs).andThen (fun x y ts us hlt hlt' hx hs => .done ?_ hs)
        fun _ _ _ => Reading.done_suffix _ _
      split
      · exact sim.neg _ _ hx
      · exact sim.pos _ _ hx
    · exact power_agrees sim hs
termination_by (ts.length, 5)

theorem power_agrees (sim : Simulates cmp R alg alg') {ts us : List Token} (hs : cmp.Same ts us) :
    cmp.Agrees R (power alg cmp.ending ts) (power alg' cmp.ending' us) := by
  rw [power, power]
  exact (primary_agrees sim hs).andThen_widen (fun v w ts us hlt hv hs =>
    powerTail_agrees sim hv hs) (powerTail_left alg cmp.ending)
termination_by (ts.length, 4)

theorem powerTail_agrees (sim : Simulates cmp R alg alg') {v : V} {w : W} {ts us : List Token}
    (hv : R v w) (hs : cmp.Same ts us) :
    cmp.Agrees R (powerTail alg cmp.ending v ts) (powerTail alg' cmp.ending' w us) := by
  match ts with
  | [] =>
    cases hs with
    | ended hk he =>
      rw [powerTail, powerTail]
      exact .done hv (.ended hk he)
  | t :: ts =>
    obtain ⟨t', us, rfl, ht, hnext⟩ := hs.exists_cons
    rw [powerTail, powerTail, ht.kind]
    split
    · refine .past hnext (fun hs _ => ?_) (Reading.andThen_left (unary_left alg cmp.ending ts)
        fun _ _ _ => Reading.done_suffix _ _)
      exact (unary_agrees sim hs).andThen (fun x y ts us hlt hlt' hx hs =>
        .done (sim.pow _ _ _ _ hv hx) hs) fun _ _ _ => Reading.done_suffix _ _
    · exact .done hv hs
termination_by (ts.length, 0)

theorem primary_agrees (sim : Simulates cmp R alg alg') {ts us : List Token}
    (hs : cmp.Same ts us) :
    cmp.Agrees R (primary alg cmp.ending ts) (primary alg' cmp.ending' us) := by
  match ts with
  | [] =>
    cases hs with
    | ended hk he =>
      rw [primary, primary]
      exact Comparison.Same.missing .operand (.ended hk he)
  | t :: ts =>
    obtain ⟨t', us, rfl, ht, hnext⟩ := hs.exists_cons
    rw [primary, primary]
    simp only [ht.kind, ht.lexeme]
    split
    · exact .past hnext (fun hs _ => .done (sim.number _) hs) (Reading.done_suffix _ _)
    · rename_i hk
      exact .past hnext (fun hs hn => named_agrees sim ht (hn hk) hs) (named_left alg cmp.ending t ts)
    · have hl : ∀ (v : V) (rest : List Token) (hlt : rest.length < ts.length),
          ((close cmp.ending .closingParen rest).andThen fun _ last h' =>
            (.done (alg.group v) last (by grind) : Reading V (t :: ts).length)).left <:+ rest :=
        fun v rest hlt => Reading.andThen_left (close_left _) fun _ _ _ => Reading.done_suffix _ _
      refine .past hnext (fun hs _ => ?_) (Reading.andThen_left (sum_left alg cmp.ending ts) hl)
      refine (sum_agrees sim hs).andThen (fun v w ts us hlt hlt' hv hs => ?_) hl
      exact (hs.close .closingParen).andThen (fun _ _ ts us _ _ _ hs =>
        .done (sim.group _ _ hv) hs) fun _ _ _ => Reading.done_suffix _ _
    · exact hs.missing .operand
termination_by (ts.length, 3)

theorem named_agrees (sim : Simulates cmp R alg alg') {name name' : Token} {ts us : List Token}
    (hname : name.Alike cmp.columns name') (hn : Uncalled ts → cmp.names name.lexeme)
    (hs : cmp.Same ts us) :
    cmp.Agrees R (named alg cmp.ending name ts) (named alg' cmp.ending' name' us) := by
  match ts with
  | [] =>
    cases hs with
    | ended hk he =>
      rw [named, named]
      exact sim.value hname (hn (by simp [Uncalled])) (.ended hk he)
  | t :: ts =>
    obtain ⟨t', us, rfl, ht, hnext⟩ := hs.exists_cons
    rw [named, named, ht.kind]
    split
    · refine .past hnext (fun hs _ => (arguments_agrees sim hname hs).widen _ _) ?_
      rw [Reading.widen_left]
      exact arguments_left alg cmp.ending name ts
    · rename_i hk
      exact sim.value hname (hn (by simpa [Uncalled] using hk)) hs
termination_by (ts.length, 0)

theorem arguments_agrees (sim : Simulates cmp R alg alg') {name name' : Token}
    {ts us : List Token} (hname : name.Alike cmp.columns name') (hs : cmp.Same ts us) :
    cmp.Agrees R (arguments alg cmp.ending name ts) (arguments alg' cmp.ending' name' us) := by
  match ts with
  | [] =>
    cases hs with
    | ended hk he =>
      rw [arguments, arguments]
      exact Comparison.Same.missing .operand (.ended hk he)
  | t :: ts =>
    obtain ⟨t', us, rfl, ht, hnext⟩ := hs.exists_cons
    rw [arguments, arguments, ht.kind]
    split
    · exact sim.apply hname .nil hs
    · exact (sum_agrees sim hs).andThen_widen (fun v w ts us hlt hv hs =>
        argumentsTail_agrees sim hname (.cons hv .nil) hs) fun v =>
          argumentsTail_left alg cmp.ending name [v]
termination_by (ts.length, 8)

theorem argumentsTail_agrees (sim : Simulates cmp R alg alg') {name name' : Token}
    {args : List V} {args' : List W} {ts us : List Token} (hname : name.Alike cmp.columns name')
    (hargs : List.Forall₂ R args args') (hs : cmp.Same ts us) :
    cmp.Agrees R (argumentsTail alg cmp.ending name args ts)
      (argumentsTail alg' cmp.ending' name' args' us) := by
  match ts with
  | [] =>
    cases hs with
    | ended hk he =>
      rw [argumentsTail, argumentsTail]
      exact sim.apply hname hargs (.ended hk he)
  | t :: ts =>
    obtain ⟨t', us, rfl, ht, hnext⟩ := hs.exists_cons
    rw [argumentsTail, argumentsTail, ht.kind]
    split
    · refine .past hnext (fun hs _ => ?_) (Reading.andThen_widen_left (sum_left alg cmp.ending ts)
        fun v rest _ => argumentsTail_left alg cmp.ending name (args ++ [v]) rest)
      refine (sum_agrees sim hs).andThen_widen (fun v w ts us hlt hv hs => ?_)
        fun v => argumentsTail_left alg cmp.ending name (args ++ [v])
      exact argumentsTail_agrees sim hname (List.rel_append hargs (.cons hv .nil)) hs
    · exact sim.apply hname hargs hs
termination_by (ts.length, 0)

end

/-- Meanings go together with themselves. -/
theorem Simulates.refl (cmp : Comparison) (alg : Algebra V) : Simulates cmp Eq alg alg where
  number _ := rfl
  name n _ := .refl (alg.name n)
  call n vs ws h := by
    rw [List.forall₂_eq_eq_eq] at h
    rw [h]
    exact .refl _
  group _ _ h := by rw [h]
  pos _ _ h := by rw [h]
  neg _ _ h := by rw [h]
  add _ _ _ _ h h' := by rw [h, h']
  sub _ _ _ _ h h' := by rw [h, h']
  mul _ _ _ _ h h' := by rw [h, h']
  div _ _ _ _ h h' := by
    rw [h, h']
    exact .refl _
  pow _ _ _ _ h h' := by rw [h, h']

/-- Trees are a meaning that goes together with every other, where a failure of meaning need not
carry over. -/
theorem Simulates.trees (h : ¬ cmp.strict) (alg : Algebra V) :
    Simulates cmp (fun _ _ => True) alg trees where
  number _ := trivial
  name _ _ := ⟨fun _ _ => ⟨_, rfl, trivial⟩, fun hs => absurd hs h⟩
  call _ _ _ _ := ⟨fun _ _ => ⟨_, rfl, trivial⟩, fun hs => absurd hs h⟩
  group _ _ _ := trivial
  pos _ _ _ := trivial
  neg _ _ _ := trivial
  add _ _ _ _ _ _ := trivial
  sub _ _ _ _ _ _ := trivial
  mul _ _ _ _ _ _ := trivial
  div _ _ _ _ _ _ := ⟨fun _ _ => ⟨_, rfl, trivial⟩, fun hs => absurd hs h⟩
  pow _ _ _ _ _ _ := trivial

/-- Nothing may follow the sum that a text is. -/
def finish {n : Nat} (ending : Ending) (v : V) : List Token → Reading V (n + 1)
  | [] => .done v [] (Nat.succ_pos _)
  | u :: rest => missing .endOfText ending (u :: rest)

theorem finish_left {n : Nat} (ending : Ending) (v : V) (rest : List Token) :
    (finish ending v rest : Reading V (n + 1)).left <:+ rest := by
  cases rest with
  | nil => exact List.nil_suffix
  | cons u rest => exact List.suffix_refl _

/-- What reading a whole text comes to. -/
def Tokens.reading (alg : Algebra V) (text : Tokens) : Reading V (text.tokens.length + 1) :=
  past text.ending text.tokens <|
    match text.tokens with
    | [] => missing .anything text.ending []
    | t :: rest =>
      (sum alg text.ending (t :: rest)).andThen fun v rest' _ => finish text.ending v rest'

def Reading.outcome {n : Nat} : Reading V n → Except Error V
  | done v _ _ => .ok v
  | failed e _ => .error e

theorem Tokens.read_eq (alg : Algebra V) (text : Tokens) :
    text.read alg = (text.reading alg).outcome := by
  obtain ⟨ts, ending⟩ := text
  cases ts with
  | nil => cases ending <;> rfl
  | cons t ts =>
    simp only [read, reading]
    cases sum alg ending (t :: ts) with
    | done v rest h => cases rest <;> rfl
    | failed e rest => rfl

theorem Tokens.reading_agrees (sim : Simulates cmp R alg alg') {text text' : Tokens}
    (he : text.ending = cmp.ending) (he' : text'.ending = cmp.ending')
    (hs : cmp.Same text.tokens text'.tokens) :
    cmp.Agrees R (text.reading alg) (text'.reading alg') := by
  obtain ⟨ts, ending⟩ := text
  obtain ⟨us, ending'⟩ := text'
  cases he
  cases he'
  have hs : cmp.Same ts us := hs
  cases ts with
  | nil =>
    cases hs with
    | ended hk he =>
      exact .past (.inl ⟨.ended hk he, trivial⟩) (fun hs _ => hs.missing .anything)
        List.nil_suffix
  | cons t ts =>
    obtain ⟨t', us, rfl, -⟩ := hs.exists_cons
    have hfinish : ∀ (v : V) (rest : List Token) (_ : rest.length < (t :: ts).length),
        (finish cmp.ending v rest : Reading V ((t :: ts).length + 1)).left <:+ rest :=
      fun v rest _ => finish_left cmp.ending v rest
    refine .past (.inl ⟨hs, trivial⟩) (fun hs _ => ?_)
      (Reading.andThen_left (sum_left alg cmp.ending (t :: ts)) hfinish)
    refine (sum_agrees sim hs).andThen (fun v w ts us hlt hlt' hv hs => ?_) hfinish
    cases hs with
    | ended hk he => exact .done hv (.ended hk he)
    | last ht hk => exact Comparison.Same.missing .endOfText (.last ht hk)
    | cons ht hn hs => exact Comparison.Same.missing .endOfText (.cons ht hn hs)

end
end QuantumOps.Expression
