import QuantumOps.Expression.Token

/-!
Taking a text apart. At each place that is not blank the longest token that starts there is taken;
`munch` says of which kind it is and how many characters beyond the first it covers. -/
namespace QuantumOps.Expression

/-- The six blanks of ASCII: space, tab, line feed, vertical tab, form feed, carriage return. -/
def isBlank (c : Char) : Bool := c = ' ' || (9 ≤ c.toNat && c.toNat ≤ 13)

/-- A letter of ASCII or an underscore. -/
def isNameStart (c : Char) : Bool := c.isAlpha || c = '_'

/-- A letter or digit of ASCII or an underscore. -/
def isNameChar (c : Char) : Bool := c.isAlphanum || c = '_'

/-- How many digits stand at the head of `cs`. -/
def digitRun (cs : List Char) : Nat := (cs.takeWhile Char.isDigit).length

/-- The length of a point and the digits after it. -/
def fractionLength : List Char → Nat
  | '.' :: rest => 1 + digitRun rest
  | _ => 0

/-- The length of an optional sign. -/
def signLength : List Char → Nat
  | '+' :: _ => 1
  | '-' :: _ => 1
  | _ => 0

/-- The length of an exponent part, which must have a digit once its letter is there. -/
def exponentLength : List Char → Except LexicalFault Nat
  | [] => .ok 0
  | c :: rest =>
    if c = 'e' ∨ c = 'E' then
      let digits := digitRun (rest.drop (signLength rest))
      if digits = 0 then .error .missingExponentDigits
      else .ok (1 + signLength rest + digits)
    else .ok 0

/-- The length of what continues a number after its first character: digits, a fraction and an
exponent part. -/
def numberLength (cs : List Char) : Except LexicalFault Nat :=
  let whole := digitRun cs
  let fraction := fractionLength (cs.drop whole)
  (exponentLength (cs.drop (whole + fraction))).map (whole + fraction + ·)

/-- The kind of the longest token that starts with `c` before `rest`, and how many characters of
`rest` belong to it. -/
def munch (c : Char) (rest : List Char) : Except LexicalFault (Token.Kind × Nat) :=
  match c with
  | '(' => .ok (.leftParen, 0)
  | ')' => .ok (.rightParen, 0)
  | ',' => .ok (.comma, 0)
  | '+' => .ok (.plus, 0)
  | '-' => .ok (.minus, 0)
  | '/' => .ok (.slash, 0)
  | '^' => .ok (.caret, 0)
  | '*' => if rest.head? = some '*' then .ok (.caret, 1) else .ok (.star, 0)
  | c =>
    if c.isDigit || (c = '.' && rest.head?.any Char.isDigit) then
      (numberLength rest).map (Token.Kind.number, ·)
    else if isNameStart c then .ok (.identifier, (rest.takeWhile isNameChar).length)
    else .error .unexpectedCharacter

/-- The tokens of `cs`, the first character of which stands in the given column. -/
def scan (column : Nat) (cs : List Char) : Tokens :=
  match cs with
  | [] => ⟨[], .endOfText column⟩
  | c :: rest =>
    if isBlank c then scan (column + 1) rest
    else
      match munch c rest with
      | .error cause => ⟨[], .fault cause column⟩
      | .ok (kind, n) =>
        (scan (column + 1 + n) (rest.drop n)).cons
          ⟨kind, String.ofList (c :: rest.take n), column⟩
termination_by cs.length
decreasing_by all_goals simp_wf; try omega

/-- The tokens of a text. -/
def tokenize (s : String) : Tokens := scan 1 s.toList

end QuantumOps.Expression
