import QuantumOps.Expression.Error

/-!
Reading a sequence of tokens as an expression. Lowest precedence first, the phrases are

* sum: product (`+` product or `-` product)*
* product: unary (`*` unary or `/` unary)*
* unary: `+` unary, `-` unary, or power
* power: primary, or primary `^` unary
* primary: number, name, name `(` arguments `)`, or `(` sum `)`

The reader works out the meaning of each phrase in an `Algebra` while it reads, and stops at the
first failure of text or of meaning. It sees one token ahead: going past a token brings the next
one into sight, and a fault of the text there comes before all else. Each phrase takes at least one
token, which is why reading ends. -/
namespace QuantumOps.Expression

/-- What numbers, names, calls, parentheses and operators mean. A name without a value, a function
that does not exist and a division that cannot be done have no meaning. -/
structure Algebra (V : Type) where
  number : String → V
  name : String → Option V
  call : String → List V → Option V
  group : V → V
  pos : V → V
  neg : V → V
  add : V → V → V
  sub : V → V → V
  mul : V → V → V
  div : V → V → Option V
  pow : V → V → V

/-- What reading comes to: a meaning and the tokens that follow, fewer than the bound, or a failure
and the tokens from the one in sight on. -/
inductive Reading (V : Type) (bound : Nat)
  | done (value : V) (rest : List Token) (shorter : rest.length < bound)
  | failed (error : Error) (rest : List Token)

namespace Reading

variable {V W : Type} {m n : Nat}

/-- Reads on after a phrase, knowing that the phrase has taken a token. -/
def andThen (r : Reading V m) (next : V → (rest : List Token) → rest.length < m → Reading W n) :
    Reading W n :=
  match r with
  | done value rest shorter => next value rest shorter
  | failed error rest => failed error rest

/-- The same reading under a larger bound. -/
def widen (r : Reading V m) (h : m ≤ n) : Reading V n :=
  r.andThen fun value rest shorter => done value rest (Nat.lt_of_lt_of_le shorter h)

end Reading

/-- Brings the token after the one just passed into sight; `rest` is all that is left. When there
is none and the text breaks off, the fault of the text ends the reading. -/
def past {V : Type} {n : Nat} (ending : Ending) (rest : List Token) (next : Reading V n) :
    Reading V n :=
  match rest, ending with
  | [], .fault cause column => .failed (.lexical cause column) []
  | _, _ => next

/-- The token in sight is not what was wanted. -/
def missing {V : Type} {n : Nat} (wanted : Wanted) (ending : Ending) : List Token → Reading V n
  | [] => .failed (.unexpected wanted none ending.column) []
  | t :: rest => .failed (.unexpected wanted (some t.lexeme) t.column) (t :: rest)

/-- Goes past a closing parenthesis. -/
def close (ending : Ending) (wanted : Wanted) (ts : List Token) : Reading Unit ts.length :=
  match ts with
  | [] => missing wanted ending []
  | t :: rest =>
    if t.kind = .rightParen then past ending rest (.done () rest (Nat.lt_succ_self _))
    else missing wanted ending (t :: rest)

section
variable {V : Type} (alg : Algebra V) (ending : Ending)

/-- The meaning of a name that is not called. -/
def value {n : Nat} (name : Token) (rest : List Token) (h : rest.length < n) : Reading V n :=
  match alg.name name.lexeme with
  | some v => .done v rest h
  | none => .failed (.unset name.lexeme name.column) rest

/-- Goes past the parenthesis that closes a call, and gives the call its meaning. -/
def apply (name : Token) (args : List V) (ts : List Token) : Reading V ts.length :=
  (close ending .closingCall ts).andThen fun _ rest h =>
    match alg.call name.lexeme args with
    | some v => .done v rest h
    | none => .failed (.unknownFunction name.lexeme args.length name.column) rest

mutual

/-- Reads a sum. -/
def sum (ts : List Token) : Reading V ts.length :=
  (product ts).andThen fun left rest h => (sumTail left rest).widen h
termination_by (ts.length, 7)

/-- Reads what follows the first product of a sum. -/
def sumTail (left : V) (ts : List Token) : Reading V (ts.length + 1) :=
  match ts with
  | [] => .done left [] (Nat.lt_succ_self _)
  | t :: rest =>
    if t.kind = .plus ∨ t.kind = .minus then
      past ending rest <| (product rest).andThen fun right rest' h =>
        (sumTail (if t.kind = .plus then alg.add left right else alg.sub left right) rest').widen
          (by grind)
    else .done left (t :: rest) (Nat.lt_succ_self _)
termination_by (ts.length, 0)

/-- Reads a product. -/
def product (ts : List Token) : Reading V ts.length :=
  (unary ts).andThen fun left rest h => (productTail left rest).widen h
termination_by (ts.length, 6)

/-- Reads what follows the first unary of a product. -/
def productTail (left : V) (ts : List Token) : Reading V (ts.length + 1) :=
  match ts with
  | [] => .done left [] (Nat.lt_succ_self _)
  | t :: rest =>
    if t.kind = .star ∨ t.kind = .slash then
      past ending rest <| (unary rest).andThen fun right rest' h =>
        match if t.kind = .star then some (alg.mul left right) else alg.div left right with
        | some v => (productTail v rest').widen (by grind)
        | none => .failed (.zeroDivisor t.column) rest'
    else .done left (t :: rest) (Nat.lt_succ_self _)
termination_by (ts.length, 0)

/-- Reads signs and a power. -/
def unary (ts : List Token) : Reading V ts.length :=
  match ts with
  | [] => missing .operand ending []
  | t :: rest =>
    if t.kind = .minus ∨ t.kind = .plus then
      past ending rest <| (unary rest).andThen fun v rest' h =>
        .done (if t.kind = .minus then alg.neg v else alg.pos v) rest' (by grind)
    else power (t :: rest)
termination_by (ts.length, 5)

/-- Reads a primary and the exponent that may follow it. -/
def power (ts : List Token) : Reading V ts.length :=
  (primary ts).andThen fun base rest h => (powerTail base rest).widen h
termination_by (ts.length, 4)

/-- Reads the exponent after a base, if there is one. -/
def powerTail (base : V) (ts : List Token) : Reading V (ts.length + 1) :=
  match ts with
  | [] => .done base [] (Nat.lt_succ_self _)
  | t :: rest =>
    if t.kind = .caret then
      past ending rest <| (unary rest).andThen fun exponent rest' h =>
        .done (alg.pow base exponent) rest' (by grind)
    else .done base (t :: rest) (Nat.lt_succ_self _)
termination_by (ts.length, 0)

/-- Reads a number, a name, a call or a sum in parentheses. -/
def primary (ts : List Token) : Reading V ts.length :=
  match ts with
  | [] => missing .operand ending []
  | t :: rest =>
    match t.kind with
    | .number => past ending rest (.done (alg.number t.lexeme) rest (Nat.lt_succ_self _))
    | .identifier => past ending rest (named t rest)
    | .leftParen =>
      past ending rest <| (sum rest).andThen fun v rest' h =>
        (close ending .closingParen rest').andThen fun _ last h' =>
          .done (alg.group v) last (by grind)
    | _ => missing .operand ending (t :: rest)
termination_by (ts.length, 3)

/-- Reads what follows a name: the arguments of a call, or nothing. -/
def named (name : Token) (ts : List Token) : Reading V (ts.length + 1) :=
  match ts with
  | [] => value alg name [] (Nat.lt_succ_self _)
  | t :: rest =>
    if t.kind = .leftParen then past ending rest ((arguments name rest).widen (by grind))
    else value alg name (t :: rest) (Nat.lt_succ_self _)
termination_by (ts.length, 0)

/-- Reads the arguments of a call, after the parenthesis that opens them. -/
def arguments (name : Token) (ts : List Token) : Reading V ts.length :=
  match ts with
  | [] => missing .operand ending []
  | t :: rest =>
    if t.kind = .rightParen then apply alg ending name [] (t :: rest)
    else
      (sum (t :: rest)).andThen fun v rest' h =>
        (argumentsTail name [v] rest').widen (Nat.le_of_lt h)
termination_by (ts.length, 8)

/-- Reads the arguments after the first, given those read so far. -/
def argumentsTail (name : Token) (args : List V) (ts : List Token) : Reading V ts.length :=
  match ts with
  | [] => apply alg ending name args []
  | t :: rest =>
    if t.kind = .comma then
      past ending rest <| (sum rest).andThen fun v rest' h =>
        (argumentsTail name (args ++ [v]) rest').widen (by grind)
    else apply alg ending name args (t :: rest)
termination_by (ts.length, 0)

end

/-- Reads a text that has been taken apart, all of which must be one sum. -/
def Tokens.read (text : Tokens) : Except Error V :=
  let reading : Reading V (text.tokens.length + 1) :=
    past text.ending text.tokens <|
      match text.tokens with
      | [] => missing .anything text.ending []
      | t :: rest =>
        (sum alg text.ending (t :: rest)).andThen fun v rest' _ =>
          match rest' with
          | [] => .done v [] (Nat.succ_pos _)
          | u :: rest'' => missing .endOfText text.ending (u :: rest'')
  match reading with
  | .done v _ _ => .ok v
  | .failed e _ => .error e

end
end QuantumOps.Expression
