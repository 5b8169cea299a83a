import QuantumOps.Dict

/-!
How composite values are written: lists in brackets, maps and records in braces, strings in quotes
without escapes. -/
namespace QuantumOps.Text

/-- The texts with commas between them. -/
def commas (texts : List String) : String := String.intercalate ", " texts

def quoted (s : String) : String := "\"" ++ s ++ "\""

def bool (b : Bool) : String := if b then "true" else "false"

def list {α : Type} (text : α → String) (xs : List α) : String :=
  "[" ++ commas (xs.map text) ++ "]"

/-- A map from qubits, in their order. -/
def dict (d : Dict Nat Nat) : String :=
  "\x7b" ++ commas (d.entries.map fun e => toString e.1 ++ ": " ++ toString e.2) ++ "\x7d"

def option {α : Type} (text : α → String) : Option α → String
  | none => "None"
  | some x => "Some(" ++ text x ++ ")"

/-- A name and labelled texts. -/
def record (name : String) (fields : List (String × String)) : String :=
  name ++ " \x7b " ++ commas (fields.map fun f => f.1 ++ ": " ++ f.2) ++ " \x7d"

end QuantumOps.Text
