import QuantumOps.Expression.Value

/-!
Scalars: numbers or symbolic expressions. Arithmetic of two numbers gives a number. Arithmetic with
an expression writes a larger expression, one self-contained operand in parentheses or a call, and
leaves out what adding zero or multiplying by zero or one would not change. -/
namespace QuantumOps

/-- A real number or the text of an expression that stands for one. -/
inductive Scalar (R : Type)
  | number (x : R)
  | symbol (expression : String)
  deriving Repr

namespace Scalar

variable {R : Type}

def isSymbol : Scalar R → Bool
  | number _ => false
  | symbol _ => true

/-- The number, or the failure to be one. -/
def toNumber : Scalar R → Except Expression.Error R
  | number x => .ok x
  | symbol e => .error (.symbolic e)

variable [Numeric R]

instance : Inhabited (Scalar R) := ⟨number 0⟩

/-- Numbers are equal as numbers and expressions as texts. -/
def beq : Scalar R → Scalar R → Bool
  | number x, number y => x == y
  | symbol e, symbol e' => e == e'
  | _, _ => false

instance : BEq (Scalar R) := ⟨beq⟩

/-- The text that stands for the scalar in a larger expression. -/
def expression : Scalar R → String
  | number x => Numeric.format x
  | symbol e => e

/-- The scalar as it is shown, with its case. -/
def text : Scalar R → String
  | number x => "Float(" ++ Numeric.format x ++ ")"
  | symbol e => "Str(\"" ++ e ++ "\")"

def isZero : Scalar R → Bool
  | number x => x == 0
  | symbol _ => false

def isOne : Scalar R → Bool
  | number x => x == 1
  | symbol _ => false

/-- An operator between two operands, in parentheses. -/
def operation (left : Scalar R) (op : String) (right : Scalar R) : Scalar R :=
  symbol ("(" ++ left.expression ++ " " ++ op ++ " " ++ right.expression ++ ")")

def neg : Scalar R → Scalar R
  | number x => number (-x)
  | symbol e => symbol ("(-" ++ e ++ ")")

def add : Scalar R → Scalar R → Scalar R
  | number x, number y => number (x + y)
  | a, b => if a.isZero then b else if b.isZero then a else operation a "+" b

def sub : Scalar R → Scalar R → Scalar R
  | number x, number y => number (x - y)
  | a, b => if b.isZero then a else if a.isZero then b.neg else operation a "-" b

def mul : Scalar R → Scalar R → Scalar R
  | number x, number y => number (x * y)
  | a, b =>
    if a.isZero || b.isZero then number 0
    else if a.isOne then b
    else if b.isOne then a
    else operation a "*" b

/-- The quotient by a divisor that is not the number zero. -/
def quotient : Scalar R → Scalar R → Scalar R
  | number x, number y => number (x / y)
  | a, b => if a.isZero then number 0 else if b.isOne then a else operation a "/" b

/-- The quotient, unless the divisor is the number zero. -/
def div (a b : Scalar R) : Except Expression.Error (Scalar R) :=
  if b.isZero then .error (.dividedByZero a.expression) else .ok (quotient a b)

instance : Neg (Scalar R) := ⟨neg⟩
instance : Add (Scalar R) := ⟨add⟩
instance : Sub (Scalar R) := ⟨sub⟩
instance : Mul (Scalar R) := ⟨mul⟩

/-- The quotient by a number other than zero. -/
def divBy (a : Scalar R) (x : R) : Scalar R := quotient a (number x)

@[simp] theorem neg_number (x : R) : -(number x) = number (-x) := rfl

@[simp] theorem number_add (x y : R) : number x + number y = number (x + y) := rfl

@[simp] theorem number_sub (x y : R) : number x - number y = number (x - y) := rfl

@[simp] theorem number_mul (x y : R) : number x * number y = number (x * y) := rfl

@[simp] theorem divBy_number (x y : R) : (number x).divBy y = number (x / y) := rfl

/-- A function of one argument: the number, or the call written out. -/
def applied (name : String) (f : R → R) : Scalar R → Scalar R
  | number x => number (f x)
  | symbol e => symbol (name ++ "(" ++ e ++ ")")

def sin : Scalar R → Scalar R := applied "sin" Numeric.sin

def cos : Scalar R → Scalar R := applied "cos" Numeric.cos

def sqrt : Scalar R → Scalar R := applied "sqrt" Numeric.sqrt

def exp : Scalar R → Scalar R := applied "exp" Numeric.exp

def abs : Scalar R → Scalar R := applied "abs" Numeric.abs

@[simp] theorem sin_number (x : R) : (number x).sin = number (Numeric.sin x) := rfl

@[simp] theorem cos_number (x : R) : (number x).cos = number (Numeric.cos x) := rfl

@[simp] theorem sqrt_number (x : R) : (number x).sqrt = number (Numeric.sqrt x) := rfl

/-- A call of a function of two arguments, written out. -/
def called (name : String) (a b : Scalar R) : Scalar R :=
  symbol (name ++ "(" ++ a.expression ++ ", " ++ b.expression ++ ")")

/-- The angle of the point with the second scalar as first coordinate. -/
def atan2 : Scalar R → Scalar R → Scalar R
  | number y, number x => number (Numeric.atan2 y x)
  | y, x => called "atan2" y x

@[simp] theorem atan2_number (y x : R) :
    atan2 (number y) (number x) = number (Numeric.atan2 y x) := rfl

def pow : Scalar R → Scalar R → Scalar R
  | number x, number y => number (Numeric.pow x y)
  | a, b => if b.isOne then a else called "pow" a b

/-- The value of the scalar: a number is taken as it is, an expression must have a finite value. -/
def evaluate (vars : Expression.Variables R) : Scalar R → Except Expression.Error R
  | number x => .ok x
  | symbol e => Expression.evaluateFinite vars e

end Scalar

/-- A complex number with scalars as parts. -/
structure ComplexScalar (R : Type) where
  re : Scalar R
  im : Scalar R
  deriving Repr

namespace ComplexScalar

variable {R : Type}

/-- Whether both parts are numbers. -/
def isNumber (z : ComplexScalar R) : Bool := !z.re.isSymbol && !z.im.isSymbol

variable [Numeric R]

instance : Inhabited (ComplexScalar R) := ⟨⟨default, default⟩⟩

instance : BEq (ComplexScalar R) := ⟨fun z w => z.re == w.re && z.im == w.im⟩

def conj (z : ComplexScalar R) : ComplexScalar R := ⟨z.re, -z.im⟩

/-- The length of the vector. -/
def norm (z : ComplexScalar R) : Scalar R := (z.re * z.re + z.im * z.im).sqrt

/-- The angle of the vector. -/
def arg (z : ComplexScalar R) : Scalar R := Scalar.atan2 z.im z.re

instance : Add (ComplexScalar R) := ⟨fun z w => ⟨z.re + w.re, z.im + w.im⟩⟩

instance : Sub (ComplexScalar R) := ⟨fun z w => ⟨z.re - w.re, z.im - w.im⟩⟩

instance : Mul (ComplexScalar R) :=
  ⟨fun z w => ⟨z.re * w.re - z.im * w.im, z.re * w.im + z.im * w.re⟩⟩

def text (z : ComplexScalar R) : String :=
  "Complex \x7b re: " ++ z.re.text ++ ", im: " ++ z.im.text ++ " \x7d"

end ComplexScalar
end QuantumOps
