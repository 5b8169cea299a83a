import QuantumOps.Expression.Reader

/-! The grammar of expressions as derivations of syntax trees, apart from how they are read. Sums
and products lean to the left; the exponent of a power is a unary, and so a power leans to the
right, binds tighter than a sign before it and takes signs after it. -/
namespace QuantumOps.Expression

/-- A syntax tree. It keeps the parentheses and the signs that have no effect on the value, so that
a text has as many trees as it has derivations. -/
inductive Tree
  | number (lexeme : String)
  | name (name : String)
  | call (name : String) (args : List Tree)
  | group (inner : Tree)
  | pos (operand : Tree)
  | neg (operand : Tree)
  | add (left right : Tree)
  | sub (left right : Tree)
  | mul (left right : Tree)
  | div (left right : Tree)
  | pow (base exponent : Tree)

/-- The kinds of phrases, lowest precedence first. -/
inductive Phrase
  | sum
  | product
  | unary
  | power
  | primary

mutual

/-- The tokens are a phrase of the kind, with the syntax tree. -/
inductive Derives : Phrase → List Token → Tree → Prop
  | number {t : Token} (h : t.kind = .number) : Derives .primary [t] (.number t.lexeme)
  | name {t : Token} (h : t.kind = .identifier) : Derives .primary [t] (.name t.lexeme)
  | emptyCall {f o c : Token} (hf : f.kind = .identifier) (ho : o.kind = .leftParen)
      (hc : c.kind = .rightParen) : Derives .primary [f, o, c] (.call f.lexeme [])
  | call {f o c : Token} {ts : List Token} {args : List Tree} (hf : f.kind = .identifier)
      (ho : o.kind = .leftParen) (hargs : DerivesArgs ts args) (hc : c.kind = .rightParen) :
      Derives .primary (f :: o :: (ts ++ [c])) (.call f.lexeme args)
  | group {o c : Token} {ts : List Token} {t : Tree} (ho : o.kind = .leftParen)
      (ht : Derives .sum ts t) (hc : c.kind = .rightParen) :
      Derives .primary (o :: (ts ++ [c])) (.group t)
  | primary {ts : List Token} {t : Tree} (ht : Derives .primary ts t) : Derives .power ts t
  | pow {us vs : List Token} {o : Token} {l r : Tree} (hl : Derives .primary us l)
      (ho : o.kind = .caret) (hr : Derives .unary vs r) :
      Derives .power (us ++ o :: vs) (.pow l r)
  | power {ts : List Token} {t : Tree} (ht : Derives .power ts t) : Derives .unary ts t
  | pos {o : Token} {ts : List Token} {t : Tree} (ho : o.kind = .plus) (ht : Derives .unary ts t) :
      Derives .unary (o :: ts) (.pos t)
  | neg {o : Token} {ts : List Token} {t : Tree} (ho : o.kind = .minus)
      (ht : Derives .unary ts t) : Derives .unary (o :: ts) (.neg t)
  | unary {ts : List Token} {t : Tree} (ht : Derives .unary ts t) : Derives .product ts t
  | mul {us vs : List Token} {o : Token} {l r : Tree} (hl : Derives .product us l)
      (ho : o.kind = .star) (hr : Derives .unary vs r) :
      Derives .product (us ++ o :: vs) (.mul l r)
  | div {us vs : List Token} {o : Token} {l r : Tree} (hl : Derives .product us l)
      (ho : o.kind = .slash) (hr : Derives .unary vs r) :
      Derives .product (us ++ o :: vs) (.div l r)
  | product {ts : List Token} {t : Tree} (ht : Derives .product ts t) : Derives .sum ts t
  | add {us vs : List Token} {o : Token} {l r : Tree} (hl : Derives .sum us l)
      (ho : o.kind = .plus) (hr : Derives .product vs r) :
      Derives .sum (us ++ o :: vs) (.add l r)
  | sub {us vs : List Token} {o : Token} {l r : Tree} (hl : Derives .sum us l)
      (ho : o.kind = .minus) (hr : Derives .product vs r) :
      Derives .sum (us ++ o :: vs) (.sub l r)

/-- The tokens are one sum or more, with commas between them. -/
inductive DerivesArgs : List Token → List Tree → Prop
  | last {ts : List Token} {t : Tree} (ht : Derives .sum ts t) : DerivesArgs ts [t]
  | cons {us vs : List Token} {o : Token} {t : Tree} {args : List Tree} (ht : Derives .sum us t)
      (ho : o.kind = .comma) (hargs : DerivesArgs vs args) :
      DerivesArgs (us ++ o :: vs) (t :: args)

end

/-- The tree of a text after which a factor is written: only its last term is multiplied. -/
def Tree.timesLast (t factor : Tree) : Tree :=
  match t with
  | .add l r => .add l (.mul r factor)
  | .sub l r => .sub l (.mul r factor)
  | t => .mul t factor

/-- A product is a single term. -/
theorem Derives.timesLast_eq {ts : List Token} {t factor : Tree} (h : Derives .product ts t) :
    t.timesLast factor = .mul t factor := by
  cases h with
  | mul | div => rfl
  | unary h =>
    cases h with
    | pos | neg => rfl
    | power h =>
      cases h with
      | pow => rfl
      | primary h => cases h <;> rfl

theorem Derives.timesLast {us vs : List Token} {o : Token} {t factor : Tree}
    (h : Derives .sum us t) (ho : o.kind = .star) (hf : Derives .unary vs factor) :
    Derives .sum (us ++ o :: vs) (t.timesLast factor) := by
  cases h with
  | product h =>
    rw [h.timesLast_eq]
    exact .product (.mul h ho hf)
  | add hl ho' hr =>
    rw [List.append_assoc, List.cons_append]
    exact .add hl ho' (.mul hr ho hf)
  | sub hl ho' hr =>
    rw [List.append_assoc, List.cons_append]
    exact .sub hl ho' (.mul hr ho hf)

section
variable {V : Type} (alg : Algebra V)

mutual

/-- The meaning of a tree, if all of its parts have one. -/
def Tree.value : Tree → Option V
  | number s => some (alg.number s)
  | name n => alg.name n
  | call n args => (values args).bind (alg.call n)
  | group t => t.value.map alg.group
  | pos t => t.value.map alg.pos
  | neg t => t.value.map alg.neg
  | add l r => l.value.bind fun x => r.value.map fun y => alg.add x y
  | sub l r => l.value.bind fun x => r.value.map fun y => alg.sub x y
  | mul l r => l.value.bind fun x => r.value.map fun y => alg.mul x y
  | div l r => l.value.bind fun x => r.value.bind fun y => alg.div x y
  | pow l r => l.value.bind fun x => r.value.map fun y => alg.pow x y

/-- The meanings of several trees. -/
def Tree.values : List Tree → Option (List V)
  | [] => some []
  | t :: ts => t.value.bind fun x => (values ts).map fun xs => x :: xs

end

end

/-- Every tree as its own meaning. -/
def trees : Algebra Tree where
  number := .number
  name n := some (.name n)
  call n args := some (.call n args)
  group := .group
  pos := .pos
  neg := .neg
  add := .add
  sub := .sub
  mul := .mul
  div l r := some (.div l r)
  pow := .pow

mutual

theorem Tree.value_trees : ∀ t : Tree, t.value trees = some t
  | number _ | name _ => rfl
  | call n args => by
    rw [value, values_trees args]
    rfl
  | group t | pos t | neg t => by
    rw [value, value_trees t]
    rfl
  | add l r | sub l r | mul l r | div l r | pow l r => by
    rw [value, value_trees l, value_trees r]
    rfl

theorem Tree.values_trees : ∀ ts : List Tree, Tree.values trees ts = some ts
  | [] => rfl
  | t :: ts => by
    rw [Tree.values, Tree.value_trees t, Tree.values_trees ts]
    rfl

end

/-- The kinds of tokens that a phrase can start with. -/
def Phrase.starts : Phrase → List Token.Kind
  | .power | .primary => [.number, .identifier, .leftParen]
  | _ => [.plus, .minus, .number, .identifier, .leftParen]

theorem Derives.head {p : Phrase} {ts : List Token} {t : Tree} :
    Derives p ts t → ∃ u us, ts = u :: us ∧ u.kind ∈ p.starts
  | .number h | .name h | .emptyCall h _ _ | .call h _ _ _ | .group h _ _ =>
    ⟨_, _, rfl, by simp [h, Phrase.starts]⟩
  | .primary ht => ht.head
  | .pow hl _ _ => by
    obtain ⟨u, us, rfl, hu⟩ := hl.head
    exact ⟨u, _, rfl, hu⟩
  | .power ht => by
    obtain ⟨u, us, rfl, hu⟩ := ht.head
    exact ⟨u, us, rfl, List.mem_cons_of_mem _ (List.mem_cons_of_mem _ hu)⟩
  | .pos h _ | .neg h _ => ⟨_, _, rfl, by simp [h, Phrase.starts]⟩
  | .unary ht => ht.head
  | .mul hl _ _ | .div hl _ _ => by
    obtain ⟨u, us, rfl, hu⟩ := hl.head
    exact ⟨u, _, rfl, hu⟩
  | .product ht => ht.head
  | .add hl _ _ | .sub hl _ _ => by
    obtain ⟨u, us, rfl, hu⟩ := hl.head
    exact ⟨u, _, rfl, hu⟩

theorem DerivesArgs.head {ts : List Token} {args : List Tree} (h : DerivesArgs ts args) :
    ∃ u us, ts = u :: us ∧ u.kind ∈ Phrase.sum.starts := by
  cases h with
  | last ht => exact ht.head
  | cons ht =>
    obtain ⟨u, us, rfl, hu⟩ := ht.head
    exact ⟨u, _, rfl, hu⟩

end QuantumOps.Expression
