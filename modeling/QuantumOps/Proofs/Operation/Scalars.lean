import QuantumOps.Operation.Substitute
import QuantumOps.Proofs.Gate.Parameters
import QuantumOps.Proofs.Operation.Nesting

/-! The scalars of an operation, inside and out, as one list. A change of them that can fail fails
where it fails on the list. Where it succeeds it is a change that cannot fail, and that leaves
everything except the scalars as it was. -/
namespace QuantumOps

section
variable {R : Type} (k : Scalar R → Scalar R)

def Noise.map : Noise R → Noise R
  | damping r => damping (k r)
  | depolarising r => depolarising (k r)
  | dephasing r => dephasing (k r)
  | random r s => random (k r) (k s)
  | general rates => general rates

def Record.mapScalars : Record R → Record R
  | singleQubit g q => singleQubit (g.map k) q
  | twoQubit g c t => twoQubit (g.map k) c t
  | noise kind q time => noise (kind.map k) q (k time)
  | boostNoise coefficient => boostNoise (k coefficient)
  | stopParallelBlock qs time => stopParallelBlock qs (k time)
  | globalPhase phase => globalPhase (k phase)
  | sleep qs time => sleep qs (k time)
  | r => r

/-- Changes the scalars of a block, those of its circuit apart. -/
def Block.mapScalars : Block R → Block R
  | loop repetitions => loop (k repetitions)
  | b => b

mutual

/-- Changes every scalar of an operation and of all that is inside it. -/
def Operation.mapScalars : Operation R → Operation R
  | .record r => .record (r.mapScalars k)
  | .block b body => .block (b.mapScalars k) (Circuit.mapScalars body)
  | .annotated op note => .annotated op.mapScalars note

def Circuit.mapScalars : List (Operation R) → List (Operation R)
  | [] => []
  | op :: rest => op.mapScalars :: Circuit.mapScalars rest

end

end

/-! The scalars of what a change gives are what it gives on the list of scalars. -/

section
variable {α β ε : Type}

theorem SingleGate.parameters_traverse (f : α → Except ε β) (g : SingleGate α) :
    (fun g' : SingleGate β => g'.parameters.map Prod.snd) <$> g.traverse f =
      (g.parameters.map Prod.snd).mapM f := by
  cases g <;> simp [traverse, parameters]

theorem TwoGate.parameters_traverse (f : α → Except ε β) (g : TwoGate α) :
    (fun g' : TwoGate β => g'.parameters.map Prod.snd) <$> g.traverse f =
      (g.parameters.map Prod.snd).mapM f := by
  cases g <;> simp [traverse, parameters]

variable {R : Type} (f : Scalar R → Except ε (Scalar R))

theorem Noise.rates_traverse (kind : Noise R) :
    (fun kind' : Noise R => kind'.rates.map Prod.snd) <$> kind.traverse f =
      (kind.rates.map Prod.snd).mapM f := by
  cases kind <;> simp [traverse, rates]

theorem Record.scalars_traverse (r : Record R) :
    scalars <$> r.traverse f = r.scalars.mapM f := by
  cases r with
  | singleQubit g q =>
    rw [scalars, ← SingleGate.parameters_traverse]
    simp [traverse, scalars]
  | twoQubit g c t =>
    rw [scalars, ← TwoGate.parameters_traverse]
    simp [traverse, scalars]
  | noise kind q time =>
    rw [scalars, List.mapM_cons, ← Noise.rates_traverse]
    simp [traverse, scalars]
  | _ => simp [traverse, scalars]

theorem Block.scalars_traverse (b : Block R) :
    scalars <$> b.traverse f = b.scalars.mapM f := by
  cases b <;> simp [traverse, scalars]

mutual

theorem Operation.scalars_traverse : ∀ op : Operation R,
    Operation.scalars <$> op.traverse f = op.scalars.mapM f
  | .record r => by
    rw [Operation.scalars, ← r.scalars_traverse f]
    simp [Operation.traverse, Operation.scalars]
  | .block b body => by
    rw [Operation.scalars, List.mapM_append, ← b.scalars_traverse f,
      ← Circuit.scalars_traverse body]
    simp [Operation.traverse, Operation.scalars]
  | .annotated op note => by
    rw [Operation.scalars, ← op.scalars_traverse]
    simp [Operation.traverse, Operation.scalars]

theorem Circuit.scalars_traverse : ∀ c : List (Operation R),
    Circuit.scalars <$> Circuit.traverse f c = (Circuit.scalars c).mapM f
  | [] => by simp [Circuit.traverse, Circuit.scalars]
  | op :: rest => by
    rw [Circuit.scalars, List.mapM_append, ← op.scalars_traverse,
      ← Circuit.scalars_traverse rest]
    simp [Circuit.traverse, Circuit.scalars]

end

end

section
variable {R ε : Type} {f : Scalar R → Except ε (Scalar R)} {k : Scalar R → Scalar R}

theorem Noise.traverse_eq_ok {kind : Noise R} (h : ∀ s ∈ kind.rates.map Prod.snd, f s = .ok (k s)) :
    kind.traverse f = .ok (kind.map k) := by
  cases kind <;> simp_all [traverse, rates, map, bind, Except.bind, pure, Except.pure]

theorem Record.traverse_eq_ok {r : Record R} (h : ∀ s ∈ r.scalars, f s = .ok (k s)) :
    r.traverse f = .ok (r.mapScalars k) := by
  cases r with
  | singleQubit g q =>
    rw [traverse, SingleGate.traverse_eq_ok h]
    rfl
  | twoQubit g c t =>
    rw [traverse, TwoGate.traverse_eq_ok h]
    rfl
  | noise kind q time =>
    obtain ⟨htime, hrates⟩ := List.forall_mem_cons.mp h
    rw [traverse, htime, Noise.traverse_eq_ok hrates]
    rfl
  | boostNoise s | stopParallelBlock _ s | globalPhase s | sleep _ s =>
    rw [traverse, h s List.mem_cons_self]
    rfl
  | _ => rfl

theorem Block.traverse_eq_ok {b : Block R} (h : ∀ s ∈ b.scalars, f s = .ok (k s)) :
    b.traverse f = .ok (b.mapScalars k) := by
  cases b with
  | loop repetitions =>
    rw [traverse, h repetitions List.mem_cons_self]
    rfl
  | _ => rfl

mutual

theorem Operation.traverse_eq_ok : ∀ {op : Operation R}, (∀ s ∈ op.scalars, f s = .ok (k s)) →
    op.traverse f = .ok (op.mapScalars k)
  | .record r, h => by
    rw [Operation.traverse, r.traverse_eq_ok h]
    rfl
  | .block b body, h => by
    rw [Operation.scalars, List.forall_mem_append] at h
    rw [Operation.traverse, b.traverse_eq_ok h.1, Circuit.traverse_eq_ok h.2]
    rfl
  | .annotated op note, h => by
    rw [Operation.scalars] at h
    rw [Operation.traverse, Operation.traverse_eq_ok h]
    rfl

theorem Circuit.traverse_eq_ok : ∀ {c : List (Operation R)},
    (∀ s ∈ Circuit.scalars c, f s = .ok (k s)) →
      Circuit.traverse f c = .ok (Circuit.mapScalars k c)
  | [], _ => rfl
  | op :: rest, h => by
    rw [Circuit.scalars, List.forall_mem_append] at h
    rw [Circuit.traverse, Operation.traverse_eq_ok h.1, Circuit.traverse_eq_ok h.2]
    rfl

end

theorem Noise.map_id (kind : Noise R) : kind.map id = kind := by
  cases kind <;> rfl

theorem Record.mapScalars_id (r : Record R) : r.mapScalars id = r := by
  cases r with
  | singleQubit g q => rw [mapScalars, SingleGate.map_id]
  | twoQubit g c t => rw [mapScalars, TwoGate.map_id]
  | noise kind q time => rw [mapScalars, Noise.map_id, id]
  | _ => rfl

theorem Block.mapScalars_id (b : Block R) : b.mapScalars id = b := by
  cases b <;> rfl

mutual

theorem Operation.mapScalars_id : ∀ op : Operation R, op.mapScalars id = op
  | .record r => by rw [Operation.mapScalars, r.mapScalars_id]
  | .block b body => by rw [Operation.mapScalars, b.mapScalars_id, Circuit.mapScalars_id body]
  | .annotated op note => by rw [Operation.mapScalars, op.mapScalars_id]

theorem Circuit.mapScalars_id : ∀ c : List (Operation R), Circuit.mapScalars id c = c
  | [] => rfl
  | op :: rest => by rw [Circuit.mapScalars, op.mapScalars_id, Circuit.mapScalars_id rest]

end

theorem Noise.map_map {k k' : Scalar R → Scalar R} (kind : Noise R) :
    (kind.map k).map k' = kind.map (k' ∘ k) := by
  cases kind <;> rfl

theorem Record.mapScalars_mapScalars {k k' : Scalar R → Scalar R} (r : Record R) :
    (r.mapScalars k).mapScalars k' = r.mapScalars (k' ∘ k) := by
  cases r with
  | singleQubit g q => simp only [mapScalars, SingleGate.map_map]
  | twoQubit g c t => simp only [mapScalars, TwoGate.map_map]
  | noise kind q time => simp only [mapScalars, Noise.map_map, Function.comp_apply]
  | _ => rfl

theorem Block.mapScalars_mapScalars {k k' : Scalar R → Scalar R} (b : Block R) :
    (b.mapScalars k).mapScalars k' = b.mapScalars (k' ∘ k) := by
  cases b <;> rfl

mutual

theorem Operation.mapScalars_mapScalars {k k' : Scalar R → Scalar R} : ∀ op : Operation R,
    (op.mapScalars k).mapScalars k' = op.mapScalars (k' ∘ k)
  | .record r => by simp only [Operation.mapScalars, r.mapScalars_mapScalars]
  | .block b body => by
    simp only [Operation.mapScalars, b.mapScalars_mapScalars, Circuit.mapScalars_mapScalars body]
  | .annotated op note => by simp only [Operation.mapScalars, op.mapScalars_mapScalars]

theorem Circuit.mapScalars_mapScalars {k k' : Scalar R → Scalar R} : ∀ c : List (Operation R),
    Circuit.mapScalars k' (Circuit.mapScalars k c) = Circuit.mapScalars (k' ∘ k) c
  | [] => rfl
  | op :: rest => by
    simp only [Circuit.mapScalars, op.mapScalars_mapScalars, Circuit.mapScalars_mapScalars rest]

end

mutual

/-- The operations inside are changed each in its place. -/
theorem Operation.nested_mapScalars : ∀ op : Operation R,
    (op.mapScalars k).nested = op.nested.map (Operation.mapScalars k)
  | .record r => rfl
  | .block b body => by
    rw [Operation.nested, List.map_cons, Operation.mapScalars, Operation.nested,
      Circuit.nested_mapScalars body]
  | .annotated op note => by
    rw [Operation.nested, List.map_cons, Operation.mapScalars, Operation.nested,
      Operation.nested_mapScalars op]

theorem Circuit.nested_mapScalars : ∀ c : List (Operation R),
    Circuit.nested (Circuit.mapScalars k c) = (Circuit.nested c).map (Operation.mapScalars k)
  | [] => rfl
  | op :: rest => by
    rw [Circuit.nested, List.map_append, Circuit.mapScalars, Circuit.nested,
      Operation.nested_mapScalars op, Circuit.nested_mapScalars rest]

end

theorem Record.fault?_mapScalars [Numeric R] (r : Record R) :
    (r.mapScalars k).fault? = r.fault? := by
  cases r with
  | twoQubit g c t => simp only [mapScalars, fault?, TwoGate.name_map]
  | noise kind q time => cases kind <;> rfl
  | _ => rfl

/-- Other scalars do not make the fields of a record wrong. -/
theorem Operation.isValid_mapScalars [Numeric R] {op : Operation R} (h : op.IsValid) :
    (op.mapScalars k).IsValid := by
  intro r hr
  rw [op.nested_mapScalars] at hr
  obtain ⟨n, hn, heq⟩ := List.mem_map.mp hr
  cases n with
  | record r₀ =>
    cases heq
    rw [r₀.fault?_mapScalars]
    exact h r₀ hn
  | block | annotated => cases heq

mutual

theorem Operation.isParametrized_eq : ∀ op : Operation R,
    op.isParametrized = op.scalars.any (·.isSymbol)
  | .record r => rfl
  | .block b body => by
    rw [Operation.isParametrized, Operation.scalars, List.any_append,
      Circuit.isParametrized_eq body]
  | .annotated op note => by
    rw [Operation.isParametrized, Operation.scalars, op.isParametrized_eq]

theorem Circuit.isParametrized_eq : ∀ c : List (Operation R),
    Circuit.isParametrized c = (Circuit.scalars c).any (·.isSymbol)
  | [] => rfl
  | op :: rest => by
    rw [Circuit.isParametrized, Circuit.scalars, List.any_append, op.isParametrized_eq,
      Circuit.isParametrized_eq rest]

end

namespace Operation

variable {op op' : Operation R}

theorem mapM_scalars_of_traverse (h : op.traverse f = .ok op') :
    op.scalars.mapM f = .ok op'.scalars := by
  rw [← op.scalars_traverse f, h]
  rfl

theorem scalars_mapScalars (k : Scalar R → Scalar R) (op : Operation R) :
    (op.mapScalars k).scalars = op.scalars.map k := by
  have hk : op.traverse (fun s => (.ok (k s) : Except Empty (Scalar R))) = .ok (op.mapScalars k) :=
    traverse_eq_ok fun _ _ => rfl
  have hscalars := mapM_scalars_of_traverse hk
  rw [mapM_eq_ok fun _ _ => rfl] at hscalars
  exact (Except.ok.inj hscalars).symm

/-- A change succeeds just when it gives every scalar a value, and then puts in the values. -/
theorem traverse_eq_ok_iff [Inhabited (Scalar R)] : op.traverse f = .ok op' ↔
    ∃ k, (∀ s ∈ op.scalars, f s = .ok (k s)) ∧ op' = op.mapScalars k :=
  eq_ok_iff_exists_values (fun _ => traverse_eq_ok) fun h =>
    exists_mapM_eq_ok_iff.mp ⟨_, mapM_scalars_of_traverse h⟩

theorem traverse_eq_error_iff {e : ε} :
    op.traverse f = .error e ↔ op.scalars.mapM f = .error e := by
  rw [← op.scalars_traverse f]
  cases op.traverse f <;> simp

end Operation

end

end QuantumOps
