import QuantumOps.Proofs.Operation.Outline

/-! The numbers of an operation, inside and out: those among its scalars, and those that stand for
themselves in states, rates and inputs. Whatever they are, the operation has the same names, tags
and qubits, and changing them does not interfere with changes of qubits or scalars. -/
namespace QuantumOps

section
variable {R S : Type} (f : R → S)

def Scalar.mapNumber : Scalar R → Scalar S
  | number x => number (f x)
  | symbol e => symbol e

def Amplitude.map (z : Amplitude R) : Amplitude S := ⟨f z.re, f z.im⟩

def Noise.mapNumbers : Noise R → Noise S
  | damping r => damping (r.mapNumber f)
  | depolarising r => depolarising (r.mapNumber f)
  | dephasing r => dephasing (r.mapNumber f)
  | random r s => random (r.mapNumber f) (s.mapNumber f)
  | general rates => general (rates.map (Triple.map f))

def Record.mapNumbers : Record R → Record S
  | singleQubit g q => singleQubit (g.map (Scalar.mapNumber f)) q
  | twoQubit g c t => twoQubit (g.map (Scalar.mapNumber f)) c t
  | noise kind q time => noise (kind.mapNumbers f) q (time.mapNumber f)
  | setNumberOfMeasurements number readout => setNumberOfMeasurements number readout
  | setStateVector amplitudes => setStateVector (amplitudes.map (Amplitude.map f))
  | setDensityMatrix rows => setDensityMatrix (rows.map (List.map (Amplitude.map f)))
  | repeatGate times => repeatGate times
  | overrotation gate qs amplitude variance => overrotation gate qs (f amplitude) (f variance)
  | boostNoise coefficient => boostNoise (coefficient.mapNumber f)
  | stopParallelBlock qs time => stopParallelBlock qs (time.mapNumber f)
  | globalPhase phase => globalPhase (phase.mapNumber f)
  | sleep qs time => sleep qs (time.mapNumber f)
  | activeReset q => activeReset q
  | startDecompositionBlock qs reordering => startDecompositionBlock qs reordering
  | stopDecompositionBlock qs => stopDecompositionBlock qs
  | changeDevice tags name encoded => changeDevice tags name encoded
  | measureQubit q readout index => measureQubit q readout index
  | readState quantity readout => readState quantity readout
  | repeatedMeasurement readout number indices => repeatedMeasurement readout number indices
  | definition type name length isOutput => definition type name length isOutput
  | inputSymbolic name value => inputSymbolic name (f value)

/-- Changes the numbers of a block, those of its circuit apart. -/
def Block.mapNumbers : Block R → Block S
  | conditional register index => conditional register index
  | loop repetitions => loop (repetitions.mapNumber f)
  | controlled q => controlled q
  | pauliProduct paulis readout => pauliProduct paulis readout
  | readState quantity readout => readState quantity readout

mutual

/-- Changes every number of an operation and of all that is inside it. -/
def Operation.mapNumbers : Operation R → Operation S
  | .record r => .record (r.mapNumbers f)
  | .block b body => .block (b.mapNumbers f) (Circuit.mapNumbers body)
  | .annotated op note => .annotated op.mapNumbers note

def Circuit.mapNumbers : List (Operation R) → List (Operation S)
  | [] => []
  | op :: rest => op.mapNumbers :: Circuit.mapNumbers rest

end

end

section
variable {R : Type}

def Scalar.numbers : Scalar R → List R
  | number x => [x]
  | symbol _ => []

def Amplitude.numbers (z : Amplitude R) : List R := [z.re, z.im]

/-- The numbers of noise that are no scalars. -/
def Noise.plainNumbers : Noise R → List R
  | general rates => rates.toList.flatMap Triple.toList
  | _ => []

/-- The numbers of a record that are no scalars. -/
def Record.plainNumbers : Record R → List R
  | noise kind _ _ => kind.plainNumbers
  | setStateVector amplitudes => amplitudes.flatMap Amplitude.numbers
  | setDensityMatrix rows => rows.flatMap (List.flatMap Amplitude.numbers)
  | overrotation _ _ amplitude variance => [amplitude, variance]
  | inputSymbolic _ value => [value]
  | _ => []

def Record.numbers (r : Record R) : List R := r.scalars.flatMap Scalar.numbers ++ r.plainNumbers

/-- The numbers of a block, those of its circuit apart. -/
def Block.numbers (b : Block R) : List R := b.scalars.flatMap Scalar.numbers

/-- The numbers that an operation has itself. -/
def Operation.ownNumbers : Operation R → List R
  | .record r => r.numbers
  | .block b _ => b.numbers
  | .annotated .. => []

/-- The numbers of an operation, inside and out. -/
def Operation.numbers (op : Operation R) : List R := op.nested.flatMap Operation.ownNumbers

def Circuit.numbers (c : List (Operation R)) : List R :=
  (Circuit.nested c).flatMap Operation.ownNumbers

@[simp] theorem Operation.numbers_record {r : Record R} : (record r).numbers = r.numbers :=
  List.append_nil _

@[simp] theorem Operation.numbers_block {b : Block R} {body : List (Operation R)} :
    (block b body).numbers = b.numbers ++ Circuit.numbers body := by
  rw [numbers, nested, List.flatMap_cons]
  rfl

@[simp] theorem Operation.numbers_annotated {op : Operation R} {note : String} :
    (annotated op note).numbers = op.numbers := by
  rw [numbers, nested, List.flatMap_cons]
  rfl

@[simp] theorem Circuit.numbers_nil : numbers ([] : List (Operation R)) = [] := rfl

@[simp] theorem Circuit.numbers_cons {op : Operation R} {rest : List (Operation R)} :
    numbers (op :: rest) = op.numbers ++ numbers rest := by
  rw [numbers, nested, List.flatMap_append]
  rfl

end

/-! What an operation is apart from its numbers does not depend on them. -/

section
variable {R S : Type} {f : R → S}

theorem Noise.name_mapNumbers (kind : Noise R) : (kind.mapNumbers f).name = kind.name := by
  cases kind <;> rfl

theorem Record.name_mapNumbers (r : Record R) : (r.mapNumbers f).name = r.name := by
  cases r with
  | singleQubit g q => exact g.name_map _
  | twoQubit g c t => exact g.name_map _
  | noise kind q time => exact kind.name_mapNumbers
  | _ => rfl

theorem Record.tags_mapNumbers (r : Record R) : (r.mapNumbers f).tags = r.tags := by
  cases r with
  | singleQubit g q => exact g.tags_map _
  | twoQubit g c t => exact g.tags_map _
  | noise kind q time => cases kind <;> rfl
  | _ => rfl

theorem Record.involved_mapNumbers (r : Record R) : (r.mapNumbers f).involved = r.involved := by
  cases r <;> rfl

theorem Record.scalars_mapNumbers (r : Record R) :
    (r.mapNumbers f).scalars = r.scalars.map (Scalar.mapNumber f) := by
  cases r with
  | singleQubit g q => exact g.parameters_map _
  | twoQubit g c t => exact g.parameters_map _
  | noise kind q time => cases kind <;> rfl
  | _ => rfl

theorem Block.name_mapNumbers (b : Block R) : (b.mapNumbers f).name = b.name := by
  cases b <;> rfl

theorem Block.involved_mapNumbers (b : Block R) : (b.mapNumbers f).involved = b.involved := by
  cases b <;> rfl

theorem Block.scalars_mapNumbers (b : Block R) :
    (b.mapNumbers f).scalars = b.scalars.map (Scalar.mapNumber f) := by
  cases b <;> rfl

theorem Operation.tags_mapNumbers (op : Operation R) : (op.mapNumbers f).tags = op.tags := by
  cases op with
  | record r => exact r.tags_mapNumbers
  | block b body => cases b <;> rfl
  | annotated op note => rfl

mutual

theorem Operation.outline_mapNumbers : ∀ op : Operation R,
    (op.mapNumbers f).outline = op.outline
  | .record r => congrArg Outline.record r.name_mapNumbers
  | .block b body => by
    rw [Operation.mapNumbers, Operation.outline, Operation.outline, b.name_mapNumbers,
      Circuit.outline_mapNumbers body]
  | .annotated op note => by
    rw [Operation.mapNumbers, Operation.outline, Operation.outline, op.outline_mapNumbers]

theorem Circuit.outline_mapNumbers : ∀ c : List (Operation R),
    Circuit.outline (Circuit.mapNumbers f c) = Circuit.outline c
  | [] => rfl
  | op :: rest => by
    rw [Circuit.mapNumbers, Circuit.outline, Circuit.outline, op.outline_mapNumbers,
      Circuit.outline_mapNumbers rest]

end

mutual

theorem Operation.involved_mapNumbers : ∀ op : Operation R,
    (op.mapNumbers f).involved = op.involved
  | .record r => r.involved_mapNumbers
  | .block b body => by
    rw [Operation.mapNumbers, Operation.involved, Operation.involved, b.involved_mapNumbers,
      Circuit.involvedFrom_mapNumbers body]
  | .annotated op note => by
    rw [Operation.mapNumbers, Operation.involved, Operation.involved, op.involved_mapNumbers]

theorem Circuit.involvedFrom_mapNumbers : ∀ (c : List (Operation R)) {sofar : Involved},
    Circuit.involvedFrom sofar (Circuit.mapNumbers f c) = Circuit.involvedFrom sofar c
  | [], _ => rfl
  | op :: rest, sofar => by
    rw [Circuit.mapNumbers, Circuit.involvedFrom, Circuit.involvedFrom, op.involved_mapNumbers]
    cases sofar.join op.involved with
    | all => rfl
    | only s => exact Circuit.involvedFrom_mapNumbers rest

end

mutual

theorem Operation.scalars_mapNumbers : ∀ op : Operation R,
    (op.mapNumbers f).scalars = op.scalars.map (Scalar.mapNumber f)
  | .record r => r.scalars_mapNumbers
  | .block b body => by
    rw [Operation.mapNumbers, Operation.scalars, Operation.scalars, List.map_append,
      b.scalars_mapNumbers, Circuit.scalars_mapNumbers body]
  | .annotated op note => by
    rw [Operation.mapNumbers, Operation.scalars, Operation.scalars, op.scalars_mapNumbers]

theorem Circuit.scalars_mapNumbers : ∀ c : List (Operation R),
    Circuit.scalars (Circuit.mapNumbers f c) = (Circuit.scalars c).map (Scalar.mapNumber f)
  | [] => rfl
  | op :: rest => by
    rw [Circuit.mapNumbers, Circuit.scalars, Circuit.scalars, List.map_append,
      op.scalars_mapNumbers, Circuit.scalars_mapNumbers rest]

end

theorem Operation.isParametrized_mapNumbers (op : Operation R) :
    (op.mapNumbers f).isParametrized = op.isParametrized := by
  rw [isParametrized_eq, isParametrized_eq, scalars_mapNumbers, List.any_map]
  refine congrArg (List.any op.scalars) (funext fun s => ?_)
  cases s <;> rfl

end

/-! Changes of numbers beside changes of qubits and of scalars. -/

section
variable {R S : Type} {f : R → S} {m : Mapping}

theorem Record.remap_mapNumbers (r : Record R) :
    (r.mapNumbers f).remap m = mapNumbers f <$> r.remap m := by
  cases r with
  | twoQubit g c t =>
    simp only [mapNumbers, remap, map_bind, TwoGate.name_map]
    refine bind_congr fun c' => bind_congr fun t' => ?_
    split <;> rfl
  | changeDevice tags name encoded =>
    simp only [mapNumbers, remap]
    cases m.firstMoved? <;> rfl
  | repeatedMeasurement readout number indices =>
    cases indices <;> simp [mapNumbers, remap]
  | _ => simp [mapNumbers, remap]

theorem Block.remap_mapNumbers (b : Block R) :
    (b.mapNumbers f).remap m = mapNumbers f <$> b.remap m := by
  cases b <;> simp [mapNumbers, remap]

mutual

/-- It is the same to change numbers before remapping or after. -/
theorem Operation.remap_mapNumbers : ∀ op : Operation R,
    (op.mapNumbers f).remap m = Operation.mapNumbers f <$> op.remap m
  | .record r => by simp [Operation.mapNumbers, Operation.remap, r.remap_mapNumbers]
  | .block b body => by
    simp [Operation.mapNumbers, Operation.remap, b.remap_mapNumbers,
      Circuit.remap_mapNumbers body]
  | .annotated op note => by simp [Operation.mapNumbers, Operation.remap, op.remap_mapNumbers]

theorem Circuit.remap_mapNumbers : ∀ c : List (Operation R),
    Circuit.remap m (Circuit.mapNumbers f c) = Circuit.mapNumbers f <$> Circuit.remap m c
  | [] => rfl
  | op :: rest => by
    simp [Circuit.mapNumbers, Circuit.remap, op.remap_mapNumbers, Circuit.remap_mapNumbers rest]

end

theorem Operation.numbers_rename {g : Nat → Nat} (op : Operation R) :
    (op.rename g).numbers = op.numbers := by
  have hown : ∀ n : Operation R, (n.rename g).ownNumbers = n.ownNumbers := by
    intro n
    cases n with
    | record r =>
      cases r with
      | repeatedMeasurement readout number indices => cases indices <;> rfl
      | _ => rfl
    | block b body => cases b <;> rfl
    | annotated op note => rw [Operation.rename, ownNumbers, ownNumbers]
  rw [numbers, numbers, op.nested_rename, List.flatMap_map]
  exact congrArg (op.nested.flatMap ·) (funext hown)

section
variable {k : Scalar R → Scalar R} {P : R → Prop}

theorem Record.plainNumbers_mapScalars (r : Record R) :
    (r.mapScalars k).plainNumbers = r.plainNumbers := by
  cases r with
  | noise kind q time => cases kind <;> rfl
  | _ => rfl

mutual

/-- With other scalars an operation has no numbers besides its own and those of the scalars. -/
theorem Operation.forall_numbers_mapScalars : ∀ {op : Operation R}, (∀ x ∈ op.numbers, P x) →
    (∀ s ∈ op.scalars, (∀ x ∈ s.numbers, P x) → ∀ x ∈ (k s).numbers, P x) →
      ∀ x ∈ (op.mapScalars k).numbers, P x
  | .record r, h, hk => by
    have hscalars : (r.mapScalars k).scalars = r.scalars.map k :=
      Operation.scalars_mapScalars k (.record r)
    rw [Operation.numbers_record, Record.numbers, List.forall_mem_append,
      List.forall_mem_flatMap] at h
    rw [Operation.mapScalars, Operation.numbers_record, Record.numbers, hscalars,
      r.plainNumbers_mapScalars, List.forall_mem_append, List.forall_mem_flatMap,
      List.forall_mem_map]
    exact ⟨fun s hs => hk s hs (h.1 s hs), h.2⟩
  | .block b body, h, hk => by
    have hscalars : (b.mapScalars k).scalars = b.scalars.map k := by
      cases b <;> rfl
    rw [Operation.numbers_block, Block.numbers, List.forall_mem_append,
      List.forall_mem_flatMap] at h
    rw [Operation.scalars, List.forall_mem_append] at hk
    rw [Operation.mapScalars, Operation.numbers_block, Block.numbers, hscalars,
      List.forall_mem_append, List.forall_mem_flatMap, List.forall_mem_map]
    exact ⟨fun s hs => hk.1 s hs (h.1 s hs), Circuit.forall_numbers_mapScalars h.2 hk.2⟩
  | .annotated op note, h, hk => by
    rw [Operation.numbers_annotated] at h
    rw [Operation.mapScalars, Operation.numbers_annotated]
    exact Operation.forall_numbers_mapScalars h hk

theorem Circuit.forall_numbers_mapScalars : ∀ {c : List (Operation R)},
    (∀ x ∈ Circuit.numbers c, P x) →
    (∀ s ∈ Circuit.scalars c, (∀ x ∈ s.numbers, P x) → ∀ x ∈ (k s).numbers, P x) →
      ∀ x ∈ Circuit.numbers (Circuit.mapScalars k c), P x
  | [], h, _ => h
  | op :: rest, h, hk => by
    rw [Circuit.numbers_cons, List.forall_mem_append] at h
    rw [Circuit.scalars, List.forall_mem_append] at hk
    rw [Circuit.mapScalars, Circuit.numbers_cons, List.forall_mem_append]
    exact ⟨Operation.forall_numbers_mapScalars h.1 hk.1,
      Circuit.forall_numbers_mapScalars h.2 hk.2⟩

end

end

section
variable {ε α β : Type} {φ : α → β} {k : α → Except ε α} {k' : β → Except ε β}

theorem SingleGate.traverse_map_eq (h : ∀ a, k' (φ a) = φ <$> k a) (g : SingleGate α) :
    (g.map φ).traverse k' = SingleGate.map φ <$> g.traverse k := by
  cases g <;> simp [map, traverse, h]

theorem TwoGate.traverse_map_eq (h : ∀ a, k' (φ a) = φ <$> k a) (g : TwoGate α) :
    (g.map φ).traverse k' = TwoGate.map φ <$> g.traverse k := by
  cases g <;> simp [map, traverse, h]

end

section
variable {ε : Type} {k : Scalar R → Except ε (Scalar R)} {k' : Scalar S → Except ε (Scalar S)}

theorem Record.traverse_mapNumbers (h : ∀ s, k' (s.mapNumber f) = Scalar.mapNumber f <$> k s)
    (r : Record R) : (r.mapNumbers f).traverse k' = mapNumbers f <$> r.traverse k := by
  cases r with
  | singleQubit g q => simp [mapNumbers, traverse, SingleGate.traverse_map_eq h]
  | twoQubit g c t => simp [mapNumbers, traverse, TwoGate.traverse_map_eq h]
  | noise kind q time =>
    cases kind <;> simp [mapNumbers, traverse, Noise.mapNumbers, Noise.traverse, h]
  | _ => simp [mapNumbers, traverse, h]

theorem Block.traverse_mapNumbers (h : ∀ s, k' (s.mapNumber f) = Scalar.mapNumber f <$> k s)
    (b : Block R) : (b.mapNumbers f).traverse k' = mapNumbers f <$> b.traverse k := by
  cases b <;> simp [mapNumbers, traverse, h]

mutual

/-- It is the same to change numbers before a change of the scalars or after. -/
theorem Operation.traverse_mapNumbers
    (h : ∀ s, k' (s.mapNumber f) = Scalar.mapNumber f <$> k s) : ∀ op : Operation R,
      (op.mapNumbers f).traverse k' = Operation.mapNumbers f <$> op.traverse k
  | .record r => by simp [Operation.mapNumbers, Operation.traverse, r.traverse_mapNumbers h]
  | .block b body => by
    simp [Operation.mapNumbers, Operation.traverse, b.traverse_mapNumbers h,
      Circuit.traverse_mapNumbers h body]
  | .annotated op note => by
    simp [Operation.mapNumbers, Operation.traverse, Operation.traverse_mapNumbers h op]

theorem Circuit.traverse_mapNumbers
    (h : ∀ s, k' (s.mapNumber f) = Scalar.mapNumber f <$> k s) : ∀ c : List (Operation R),
      Circuit.traverse k' (Circuit.mapNumbers f c) = Circuit.mapNumbers f <$> Circuit.traverse k c
  | [] => rfl
  | op :: rest => by
    simp [Circuit.mapNumbers, Circuit.traverse, Operation.traverse_mapNumbers h op,
      Circuit.traverse_mapNumbers h rest]

end

end

end

end QuantumOps
