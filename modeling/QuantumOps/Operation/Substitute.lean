import QuantumOps.Operation.Basic

/-!
Putting numbers in place of symbolic parameters. `traverse` changes every scalar of an operation,
inside and out, in a fixed order; substitution changes each to its value. -/
namespace QuantumOps

section
variable {R ε : Type} (f : Scalar R → Except ε (Scalar R))

def Record.traverse : Record R → Except ε (Record R)
  | singleQubit g q => return singleQubit (← g.traverse f) q
  | twoQubit g c t => return twoQubit (← g.traverse f) c t
  | noise kind q time => do
    let time ← f time
    return noise (← kind.traverse f) q time
  | boostNoise coefficient => return boostNoise (← f coefficient)
  | stopParallelBlock qs time => return stopParallelBlock qs (← f time)
  | globalPhase phase => return globalPhase (← f phase)
  | sleep qs time => return sleep qs (← f time)
  | r => return r

def Block.traverse : Block R → Except ε (Block R)
  | loop repetitions => return loop (← f repetitions)
  | b => return b

mutual

def Operation.traverse : Operation R → Except ε (Operation R)
  | .record r => return .record (← r.traverse f)
  | .block b body => return .block (← b.traverse f) (← Circuit.traverse body)
  | .annotated op note => return .annotated (← op.traverse) note

def Circuit.traverse : List (Operation R) → Except ε (List (Operation R))
  | [] => return []
  | op :: rest => return (← op.traverse) :: (← Circuit.traverse rest)

end

end

section
variable {R : Type}

/-- The scalars of a record in their order. -/
def Record.scalars : Record R → List (Scalar R)
  | singleQubit g _ => g.parameters.map Prod.snd
  | twoQubit g _ _ => g.parameters.map Prod.snd
  | noise kind _ time => time :: kind.rates.map Prod.snd
  | boostNoise s | stopParallelBlock _ s | globalPhase s | sleep _ s => [s]
  | _ => []

/-- The scalars of a block, those of its circuit apart. -/
def Block.scalars : Block R → List (Scalar R)
  | loop repetitions => [repetitions]
  | _ => []

mutual

/-- The scalars of an operation and of all that is inside it, in their order. -/
def Operation.scalars : Operation R → List (Scalar R)
  | .record r => r.scalars
  | .block b body => b.scalars ++ Circuit.scalars body
  | .annotated op _ => op.scalars

def Circuit.scalars : List (Operation R) → List (Scalar R)
  | [] => []
  | op :: rest => op.scalars ++ Circuit.scalars rest

end

mutual

/-- Whether any scalar is symbolic. -/
def Operation.isParametrized : Operation R → Bool
  | .record r => r.scalars.any (·.isSymbol)
  | .block b body => b.scalars.any (·.isSymbol) || Circuit.isParametrized body
  | .annotated op _ => op.isParametrized

def Circuit.isParametrized : List (Operation R) → Bool
  | [] => false
  | op :: rest => op.isParametrized || Circuit.isParametrized rest

end

end

section
variable {R : Type} [Numeric R]

/-- The value of a scalar, as a scalar. -/
def Scalar.substitute (vars : Expression.Variables R) (s : Scalar R) :
    Except Expression.Error (Scalar R) :=
  return .number (← s.evaluate vars)

/-- Puts its value in place of every scalar. -/
def Operation.substitute (vars : Expression.Variables R) (op : Operation R) :
    Except Expression.Error (Operation R) :=
  op.traverse (Scalar.substitute vars)

/-- Puts its value in place of every scalar. -/
def Circuit.substitute (vars : Expression.Variables R) (c : Circuit R) :
    Except Expression.Error (Circuit R) :=
  Circuit.traverse (Scalar.substitute vars) c

end
end QuantumOps
