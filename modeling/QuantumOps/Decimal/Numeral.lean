import QuantumOps.Decimal.Basic

/-!
Reading numerals. A numeral is digits, at most one point among them that counts, and an exponent
part; whatever follows the longest such beginning is left out of account. -/
namespace QuantumOps.Decimal

/-- The natural number written by decimal digits. -/
def ofDigits (digits : List Char) : Nat := Nat.ofDigitChars 10 digits 0

/-- The exponent part at the head of `cs`: `e` or `E`, a sign if there is one, and digits. Without
digits there is no exponent part, and the exponent is zero. -/
def exponentPart : List Char → Int
  | c :: rest =>
    if c = 'e' ∨ c = 'E' then
      match rest with
      | '-' :: digits => -ofDigits (digits.takeWhile Char.isDigit)
      | '+' :: digits => ofDigits (digits.takeWhile Char.isDigit)
      | digits => ofDigits (digits.takeWhile Char.isDigit)
    else 0
  | [] => 0

/-- The digits after the point at the head of `cs`, and what follows them. -/
def fractionPart : List Char → List Char × List Char
  | '.' :: rest => (rest.takeWhile Char.isDigit, rest.dropWhile Char.isDigit)
  | rest => ([], rest)

/-- The decimal at the head of a text. -/
def ofNumeral (cs : List Char) : Decimal :=
  let whole := cs.takeWhile Char.isDigit
  let (fraction, rest) := fractionPart (cs.dropWhile Char.isDigit)
  ⟨ofDigits (whole ++ fraction), exponentPart rest - fraction.length⟩

end QuantumOps.Decimal
