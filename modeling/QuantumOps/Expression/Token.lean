/-!
Tokens of parameter expressions. A text is taken apart into tokens followed by an ending: either
the end of the text or the place where no token starts. Columns are counted from one. Every
character before a token is ASCII, so that characters and bytes give the same columns. -/
namespace QuantumOps.Expression

/-- What a token is. A doubled star is a caret. -/
inductive Token.Kind
  | number
  | identifier
  | leftParen
  | rightParen
  | comma
  | plus
  | minus
  | star
  | slash
  | caret
  deriving DecidableEq, Repr

/-- A token, the characters it covers and the column of the first of them. -/
structure Token where
  kind : Token.Kind
  lexeme : String
  column : Nat
  deriving DecidableEq, Repr

/-- Why no token starts at a place. -/
inductive LexicalFault
  | unexpectedCharacter
  | missingExponentDigits
  deriving DecidableEq, Repr

/-- How a text ends: properly, or at a place where no token starts. -/
inductive Ending
  | endOfText (column : Nat)
  | fault (cause : LexicalFault) (column : Nat)
  deriving DecidableEq, Repr

/-- A text taken apart: its tokens in order, and how it ends. -/
structure Tokens where
  tokens : List Token
  ending : Ending
  deriving DecidableEq, Repr

def Token.Kind.name : Token.Kind → String
  | .number => "Number"
  | .identifier => "Identifier"
  | .leftParen => "("
  | .rightParen => ")"
  | .comma => ","
  | .plus => "+"
  | .minus => "-"
  | .star => "*"
  | .slash => "/"
  | .caret => "^"

def LexicalFault.message : LexicalFault → String
  | .unexpectedCharacter => "Unexpected character"
  | .missingExponentDigits => "Invalid number: expected digit after exponent"

namespace Ending

def name : Ending → String
  | endOfText _ => "EndOfFile"
  | fault _ _ => "Error"

/-- The text shown for the ending: nothing, or the message of the fault. -/
def lexeme : Ending → String
  | endOfText _ => ""
  | fault cause _ => cause.message

def column : Ending → Nat
  | endOfText c => c
  | fault _ c => c

end Ending

/-- A line of the token listing: a name, the text covered and the column. -/
structure Entry where
  name : String
  lexeme : String
  column : Nat
  deriving DecidableEq, Repr

def Token.entry (t : Token) : Entry := ⟨t.kind.name, t.lexeme, t.column⟩

def Ending.entry (e : Ending) : Entry := ⟨e.name, e.lexeme, e.column⟩

namespace Entry

/-- The entry on one line; the lexeme is quoted as it is. -/
def text (e : Entry) : String :=
  "Token(" ++ e.name ++ ", \"" ++ e.lexeme ++ "\", col " ++ toString e.column ++ ")"

end Entry

namespace Tokens

def cons (t : Token) (ts : Tokens) : Tokens := ⟨t :: ts.tokens, ts.ending⟩

/-- All tokens with the ending as the last entry. -/
def entries (ts : Tokens) : List Entry := ts.tokens.map Token.entry ++ [ts.ending.entry]

end Tokens
end QuantumOps.Expression
