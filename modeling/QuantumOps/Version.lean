/-!
Versions and the least version that each kind of operation needs. -/
namespace QuantumOps

/-- A version number. Versions are ordered by their parts, the first that differs counting. -/
structure Version where
  major : Nat
  minor : Nat
  patch : Nat
  deriving DecidableEq, Repr

/-- The library is older than data requires; both versions without their patch numbers. -/
structure VersionMismatch where
  library : Nat × Nat
  data : Nat × Nat
  deriving DecidableEq, Repr

def VersionMismatch.message (e : VersionMismatch) : String :=
  let text (v : Nat × Nat) := toString v.1 ++ "." ++ toString v.2
  "Library version " ++ text e.library ++ " is older than the minimum version " ++ text e.data ++
    " required by the data"

namespace Version

def text (v : Version) : String :=
  toString v.major ++ "." ++ toString v.minor ++ "." ++ toString v.patch

def lt (v w : Version) : Bool :=
  v.major < w.major || v.major = w.major &&
    (v.minor < w.minor || v.minor = w.minor && v.patch < w.patch)

instance : LT Version := ⟨fun v w => v.lt w = true⟩
instance : LE Version := ⟨fun v w => w.lt v = false⟩
instance (v w : Version) : Decidable (v < w) := inferInstanceAs (Decidable (v.lt w = true))
instance (v w : Version) : Decidable (v ≤ w) := inferInstanceAs (Decidable (w.lt v = false))

/-- The later of two versions. -/
def max (v w : Version) : Version := if v < w then w else v

/-- The first version, which understands every operation that names no later one. -/
def initial : Version := ⟨1, 0, 0⟩

/-- The operations that came later, with the versions that introduced them. -/
def introductions : List (String × Version) :=
  [("PragmaLoop", ⟨1, 1, 0⟩), ("PhaseShiftedControlledPhase", ⟨1, 2, 0⟩),
    ("PragmaControlledCircuit", ⟨1, 5, 0⟩), ("PragmaAnnotatedOp", ⟨1, 8, 0⟩)]

/-- The least version that understands the operation of the given name. -/
def minimumFor (name : String) : Version := (introductions.lookup name).getD initial

/-- The version of this library. -/
def current : Version := ⟨1, 8, 0⟩

/-- Accepts data for a library unless the library is older than the data requires. -/
def check (minimum : Version) (library : Version) : Except VersionMismatch Unit :=
  if library < minimum then
    .error ⟨(library.major, library.minor), (minimum.major, minimum.minor)⟩
  else .ok ()

end Version
end QuantumOps
