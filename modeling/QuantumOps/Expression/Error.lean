import QuantumOps.Expression.Token

/-!
What can go wrong with a symbolic value: with its text, with the names in it, with its value, or
with using it where a number is needed. Column zero means no place in a text. -/
namespace QuantumOps.Expression

/-- What the reader of a text was looking for when a token did not fit. -/
inductive Wanted
  | anything
  | endOfText
  | operand
  | closingParen
  | closingCall
  deriving DecidableEq, Repr

def Wanted.message : Wanted → String
  | .anything => "Empty expression"
  | .endOfText => "Unexpected token after expression"
  | .operand => "Expected number, name or '(' in expression"
  | .closingParen => "Expected ')' after expression"
  | .closingCall => "Expected ')' after function arguments"

/-- The failures of symbolic values. -/
inductive Error
  /-- No token starts at the column. -/
  | lexical (cause : LexicalFault) (column : Nat)
  /-- The token found, if the text has not ended, is not one that was wanted. -/
  | unexpected (wanted : Wanted) (found : Option String) (column : Nat)
  /-- A name without a value. -/
  | unset (name : String) (column : Nat)
  /-- No function has the name and takes so many arguments. -/
  | unknownFunction (name : String) (arity : Nat) (column : Nat)
  /-- The divisor of the slash at the column is zero. -/
  | zeroDivisor (column : Nat)
  /-- A scalar, given by its text, was divided by the number zero. -/
  | dividedByZero (dividend : String)
  /-- The value of the text is infinite or no number. -/
  | notFinite (expression : String)
  /-- A symbolic value stands where a number is needed. -/
  | symbolic (expression : String)
  deriving DecidableEq, Repr

namespace Error

/-- The kinds of failure that are told apart. -/
inductive Kind
  | lexical
  | grammar
  | variableNotSet
  | unknownFunction
  | divisionByZero
  | notFinite
  | notConvertible
  deriving DecidableEq, Repr

def Kind.name : Kind → String
  | .lexical => "lexical error"
  | .grammar => "syntax error"
  | .variableNotSet => "variable not set"
  | .unknownFunction => "unknown function"
  | .divisionByZero => "division by zero"
  | .notFinite => "not finite"
  | .notConvertible => "not convertible"

def kind : Error → Kind
  | lexical .. => .lexical
  | unexpected .. => .grammar
  | unset .. => .variableNotSet
  | unknownFunction .. => .unknownFunction
  | zeroDivisor .. => .divisionByZero
  | dividedByZero .. => .divisionByZero
  | notFinite .. => .notFinite
  | symbolic .. => .notConvertible

def column : Error → Nat
  | lexical _ c => c
  | unexpected _ _ c => c
  | unset _ c => c
  | unknownFunction _ _ c => c
  | zeroDivisor c => c
  | dividedByZero _ => 0
  | notFinite _ => 0
  | symbolic _ => 0

/-- The failure in words, without its kind and place. -/
def detail : Error → String
  | lexical cause _ => cause.message
  | unexpected wanted none _ => wanted.message
  | unexpected wanted (some lexeme) _ => wanted.message ++ " (got '" ++ lexeme ++ "')"
  | unset name _ => "Variable '" ++ name ++ "' is not set"
  | unknownFunction name arity _ =>
    "No function '" ++ name ++ "' taking " ++ toString arity ++ " argument(s)"
  | zeroDivisor _ => "Division by zero in expression"
  | dividedByZero dividend => "Division of '" ++ dividend ++ "' by zero"
  | notFinite expression =>
    "Expression '" ++ expression ++ "' does not evaluate to a finite number"
  | symbolic expression =>
    "symbolic value '" ++ expression ++ "' cannot be converted to a number"

/-- The failure with its kind, after the column if there is one. -/
def message (e : Error) : String :=
  (if 0 < e.column then toString e.column ++ ": " else "") ++ e.kind.name ++ ": " ++ e.detail

end Error
end QuantumOps.Expression
