import QuantumOps.Operation.Basic
import QuantumOps.Version

/-!
The least version that understands an operation and everything inside it. -/
namespace QuantumOps

variable {R : Type}

mutual

def Operation.minimumVersion : Operation R → Version
  | .record r => .minimumFor r.name
  | .block b body => (Version.minimumFor b.name).max (Circuit.minimumVersionFrom .initial body)
  | .annotated op note =>
    (Version.minimumFor (Operation.annotated op note).name).max op.minimumVersion

/-- The latest of a version and those of the operations. -/
def Circuit.minimumVersionFrom (sofar : Version) : List (Operation R) → Version
  | [] => sofar
  | op :: rest => Circuit.minimumVersionFrom (sofar.max op.minimumVersion) rest

end

/-- The least version that understands all operations of a circuit. -/
def Circuit.minimumVersion (c : Circuit R) : Version := Circuit.minimumVersionFrom .initial c

end QuantumOps
