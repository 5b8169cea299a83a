import QuantumOps.Dict
import QuantumOps.Numeric.Basic
import QuantumOps.Expression.Lexer
import QuantumOps.Expression.Reader

/-!
The value of an expression under values for its names. The constants `pi` and `e` have their usual
values unless a name is given another one. Functions are found by name and number of arguments, and
never by the values of names. -/
namespace QuantumOps.Expression

/-- Values for names. -/
abbrev Variables (R : Type) := Dict String R

section
variable {R : Type} [Numeric R]

/-- The functions of one argument. -/
def unaryFunctions : List (String × (R → R)) :=
  [("sin", Numeric.sin), ("cos", Numeric.cos), ("tan", Numeric.tan), ("asin", Numeric.asin),
    ("acos", Numeric.acos), ("atan", Numeric.atan), ("exp", Numeric.exp), ("log", Numeric.log),
    ("sqrt", Numeric.sqrt), ("abs", Numeric.abs)]

/-- The functions of two arguments. -/
def binaryFunctions : List (String × (R → R → R)) :=
  [("atan2", Numeric.atan2), ("pow", Numeric.pow), ("max", Numeric.max), ("min", Numeric.min)]

/-- The value of a call, if there is such a function. -/
def call (name : String) : List R → Option R
  | [x] => (unaryFunctions.lookup name).map fun f => f x
  | [x, y] => (binaryFunctions.lookup name).map fun f => f x y
  | _ => none

/-- The value that a name is given, whether or not it names a constant. -/
def valueOf (vars : Variables R) (name : String) : Except Error R :=
  match vars.get? name with
  | some x => .ok x
  | none => .error (.unset name 0)

/-- The constants that every expression may name. -/
def constants : List (String × R) := [("pi", Numeric.pi), ("e", Numeric.euler)]

/-- The value of a name: the one it is given, or that of the constant it names. -/
def nameValue (vars : Variables R) (name : String) : Option R :=
  (vars.get? name).or (constants.lookup name)

/-- The meaning of expressions as numbers; only zero divides nothing. -/
def numbers (vars : Variables R) : Algebra R where
  number := Numeric.ofNumeral
  name := nameValue vars
  call := call
  group x := x
  pos x := x
  neg x := -x
  add x y := x + y
  sub x y := x - y
  mul x y := x * y
  div x y := if y == 0 then none else some (x / y)
  pow := Numeric.pow

/-- The value of a text. -/
def evaluate (vars : Variables R) (text : String) : Except Error R :=
  (tokenize text).read (numbers vars)

/-- The value of a text, which must be finite. -/
def evaluateFinite (vars : Variables R) (text : String) : Except Error R := do
  let x ← evaluate vars text
  if Numeric.isFinite x then return x else throw (.notFinite text)

end
end QuantumOps.Expression
