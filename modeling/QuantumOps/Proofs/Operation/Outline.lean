import QuantumOps.Operation.Requirement
import QuantumOps.Proofs.Operation.Involvement
import QuantumOps.Proofs.Operation.Scalars

/-! What an operation is apart from its scalars and apart from its qubits. Its outline has the names
only, each in its place, and neither other scalars nor other qubits change it. -/
namespace QuantumOps

/-- Names, each in the place of an operation inside another. -/
inductive Outline
  | record (name : String)
  | block (name : String) (body : List Outline)
  | annotated (operation : Outline)

section
variable {R : Type}

mutual

def Operation.outline : Operation R → Outline
  | .record r => .record r.name
  | .block b body => .block b.name (Circuit.outline body)
  | .annotated op _ => .annotated op.outline

/-- The outlines of the operations of a circuit in their order. -/
def Circuit.outline : List (Operation R) → List Outline
  | [] => []
  | op :: rest => op.outline :: Circuit.outline rest

end

/-- The operation with every scalar left out. -/
def Operation.withoutScalars (op : Operation R) : Operation R := op.mapScalars fun _ => .symbol ""

def Record.withoutQubits : Record R → Record R
  | singleQubit g _ => singleQubit g 0
  | twoQubit g _ _ => twoQubit g 0 0
  | noise kind _ time => noise kind 0 time
  | overrotation gate qs amplitude variance =>
    overrotation gate (qs.map fun _ => 0) amplitude variance
  | stopParallelBlock qs time => stopParallelBlock (qs.map fun _ => 0) time
  | sleep qs time => sleep (qs.map fun _ => 0) time
  | activeReset _ => activeReset 0
  | startDecompositionBlock qs _ => startDecompositionBlock (qs.map fun _ => 0) Dict.empty
  | stopDecompositionBlock qs => stopDecompositionBlock (qs.map fun _ => 0)
  | measureQubit _ readout index => measureQubit 0 readout index
  | repeatedMeasurement readout number (some _) =>
    repeatedMeasurement readout number (some Dict.empty)
  | r => r

def Block.withoutQubits : Block R → Block R
  | controlled _ => controlled 0
  | pauliProduct _ readout => pauliProduct Dict.empty readout
  | b => b

mutual

/-- The operation with every qubit left out, inside and out, and nothing in the dictionaries that
have qubits as keys. -/
def Operation.withoutQubits : Operation R → Operation R
  | .record r => .record r.withoutQubits
  | .block b body => .block b.withoutQubits (Circuit.withoutQubits body)
  | .annotated op note => .annotated op.withoutQubits note

def Circuit.withoutQubits : List (Operation R) → List (Operation R)
  | [] => []
  | op :: rest => op.withoutQubits :: Circuit.withoutQubits rest

end

/-- Where an operation itself puts what it measures of a qubit. -/
def Operation.readoutIndex? (q : Nat) : Operation R → Option Nat
  | .record (.measureQubit p _ index) => if p = q then some index else none
  | .record (.repeatedMeasurement _ _ (some indices)) => indices.get? q
  | _ => none

/-- Operations of one kind, with operations of the same kinds in the same places inside. -/
structure Operation.Alike (op op' : Operation R) : Prop where
  name : op'.name = op.name
  tags : op'.tags = op.tags
  minimumVersion : op'.minimumVersion = op.minimumVersion
  outline : op'.outline = op.outline

theorem Operation.name_congr {op op' : Operation R} (h : op.outline = op'.outline) :
    op.name = op'.name := by
  cases op with
  | record r =>
    cases op' with
    | record r' => exact Outline.record.inj h
    | block | annotated => cases h
  | block b body =>
    cases op' with
    | block b' body' => exact (Outline.block.inj h).1
    | record | annotated => cases h
  | annotated op note =>
    cases op' with
    | annotated op' note' => rfl
    | record | block => cases h

mutual

/-- The version that an operation needs depends on the names only. -/
theorem Operation.minimumVersion_congr : ∀ {op op' : Operation R}, op.outline = op'.outline →
    op.minimumVersion = op'.minimumVersion
  | .record r, .record r', h => congrArg Version.minimumFor (Outline.record.inj h)
  | .block b body, .block b' body', h => by
    obtain ⟨hname, hbody⟩ := Outline.block.inj h
    rw [Operation.minimumVersion, Operation.minimumVersion, hname,
      Circuit.minimumVersionFrom_congr hbody]
  | .annotated op note, .annotated op' note', h => by
    rw [Operation.minimumVersion, Operation.minimumVersion,
      Operation.minimumVersion_congr (Outline.annotated.inj h)]
    rfl

theorem Circuit.minimumVersionFrom_congr : ∀ {c c' : List (Operation R)} {sofar : Version},
    Circuit.outline c = Circuit.outline c' →
      Circuit.minimumVersionFrom sofar c = Circuit.minimumVersionFrom sofar c'
  | [], [], _, _ => rfl
  | op :: rest, op' :: rest', sofar, h => by
    obtain ⟨hop, hrest⟩ := List.cons.inj h
    rw [Circuit.minimumVersionFrom, Circuit.minimumVersionFrom, Operation.minimumVersion_congr hop,
      Circuit.minimumVersionFrom_congr hrest]

end

theorem Operation.Alike.intro {op op' : Operation R} (htags : op'.tags = op.tags)
    (houtline : op'.outline = op.outline) : op.Alike op' :=
  ⟨name_congr houtline, htags, minimumVersion_congr houtline, houtline⟩

end

/-! With other scalars. -/

section
variable {R : Type} {k : Scalar R → Scalar R}

theorem SingleGate.tags_map {α β : Type} (g : SingleGate α) (k : α → β) :
    (g.map k).tags = g.tags := by
  cases g <;> rfl

theorem TwoGate.tags_map {α β : Type} (g : TwoGate α) (k : α → β) : (g.map k).tags = g.tags := by
  cases g <;> rfl

theorem Noise.name_map (kind : Noise R) : (kind.map k).name = kind.name := by
  cases kind <;> rfl

theorem Record.name_mapScalars (r : Record R) : (r.mapScalars k).name = r.name := by
  cases r with
  | singleQubit g q => exact g.name_map k
  | twoQubit g c t => exact g.name_map k
  | noise kind q time => exact kind.name_map
  | _ => rfl

theorem Record.tags_mapScalars (r : Record R) : (r.mapScalars k).tags = r.tags := by
  cases r with
  | singleQubit g q => exact g.tags_map k
  | twoQubit g c t => exact g.tags_map k
  | noise kind q time => cases kind <;> rfl
  | _ => rfl

theorem Block.name_mapScalars (b : Block R) : (b.mapScalars k).name = b.name := by
  cases b <;> rfl

theorem Operation.tags_mapScalars (op : Operation R) : (op.mapScalars k).tags = op.tags := by
  cases op with
  | record r => exact r.tags_mapScalars
  | block b body => cases b <;> rfl
  | annotated op note => rfl

theorem Record.involved_mapScalars (r : Record R) : (r.mapScalars k).involved = r.involved := by
  cases r <;> rfl

theorem Block.involved_mapScalars (b : Block R) : (b.mapScalars k).involved = b.involved := by
  cases b <;> rfl

mutual

theorem Operation.outline_mapScalars : ∀ op : Operation R,
    (op.mapScalars k).outline = op.outline
  | .record r => congrArg Outline.record r.name_mapScalars
  | .block b body => by
    rw [Operation.mapScalars, Operation.outline, Operation.outline, b.name_mapScalars,
      Circuit.outline_mapScalars body]
  | .annotated op note => by
    rw [Operation.mapScalars, Operation.outline, Operation.outline, op.outline_mapScalars]

theorem Circuit.outline_mapScalars : ∀ c : List (Operation R),
    Circuit.outline (Circuit.mapScalars k c) = Circuit.outline c
  | [] => rfl
  | op :: rest => by
    rw [Circuit.mapScalars, Circuit.outline, Circuit.outline, op.outline_mapScalars,
      Circuit.outline_mapScalars rest]

end

mutual

theorem Operation.involved_mapScalars : ∀ op : Operation R,
    (op.mapScalars k).involved = op.involved
  | .record r => r.involved_mapScalars
  | .block b body => by
    rw [Operation.mapScalars, Operation.involved, Operation.involved, b.involved_mapScalars,
      Circuit.involvedFrom_mapScalars body]
  | .annotated op note => by
    rw [Operation.mapScalars, Operation.involved, Operation.involved, op.involved_mapScalars]

theorem Circuit.involvedFrom_mapScalars : ∀ (c : List (Operation R)) {sofar : Involved},
    Circuit.involvedFrom sofar (Circuit.mapScalars k c) = Circuit.involvedFrom sofar c
  | [], _ => rfl
  | op :: rest, sofar => by
    rw [Circuit.mapScalars, Circuit.involvedFrom, Circuit.involvedFrom, op.involved_mapScalars]
    cases sofar.join op.involved with
    | all => rfl
    | only s => exact Circuit.involvedFrom_mapScalars rest

end

theorem Operation.withoutScalars_mapScalars (op : Operation R) :
    (op.mapScalars k).withoutScalars = op.withoutScalars := by
  rw [withoutScalars, withoutScalars, mapScalars_mapScalars]
  rfl

end

/-! With other qubits. -/

section
variable {R : Type} {f : Nat → Nat}

theorem Record.tags_rename (r : Record R) : (r.rename f).tags = r.tags := by
  cases r with
  | repeatedMeasurement readout number indices => cases indices <;> rfl
  | _ => rfl

theorem Operation.tags_rename (op : Operation R) : (op.rename f).tags = op.tags := by
  cases op with
  | record r => exact r.tags_rename
  | block b body => cases b <;> rfl
  | annotated op note => rfl

theorem Record.scalars_rename (r : Record R) : (r.rename f).scalars = r.scalars := by
  cases r with
  | repeatedMeasurement readout number indices => cases indices <;> rfl
  | _ => rfl

theorem Block.scalars_rename (b : Block R) : (b.rename f).scalars = b.scalars := by
  cases b <;> rfl

theorem Record.withoutQubits_rename (r : Record R) :
    (r.rename f).withoutQubits = r.withoutQubits := by
  cases r with
  | overrotation | stopParallelBlock | sleep | startDecompositionBlock | stopDecompositionBlock =>
    simp only [rename, withoutQubits, List.map_map, Function.comp_def]
  | repeatedMeasurement readout number indices => cases indices <;> rfl
  | _ => rfl

theorem Block.withoutQubits_rename (b : Block R) :
    (b.rename f).withoutQubits = b.withoutQubits := by
  cases b <;> rfl

mutual

theorem Operation.outline_rename : ∀ op : Operation R, (op.rename f).outline = op.outline
  | .record r => congrArg Outline.record r.name_rename
  | .block b body => by
    rw [Operation.rename, Operation.outline, Operation.outline, b.name_rename,
      Circuit.outline_rename body]
  | .annotated op note => by
    rw [Operation.rename, Operation.outline, Operation.outline, op.outline_rename]

theorem Circuit.outline_rename : ∀ c : List (Operation R),
    Circuit.outline (Circuit.rename f c) = Circuit.outline c
  | [] => rfl
  | op :: rest => by
    rw [Circuit.rename, Circuit.outline, Circuit.outline, op.outline_rename,
      Circuit.outline_rename rest]

end

mutual

theorem Operation.scalars_rename : ∀ op : Operation R, (op.rename f).scalars = op.scalars
  | .record r => r.scalars_rename
  | .block b body => by
    rw [Operation.rename, Operation.scalars, Operation.scalars, b.scalars_rename,
      Circuit.scalars_rename body]
  | .annotated op note => by
    rw [Operation.rename, Operation.scalars, Operation.scalars, op.scalars_rename]

theorem Circuit.scalars_rename : ∀ c : List (Operation R),
    Circuit.scalars (Circuit.rename f c) = Circuit.scalars c
  | [] => rfl
  | op :: rest => by
    rw [Circuit.rename, Circuit.scalars, Circuit.scalars, op.scalars_rename,
      Circuit.scalars_rename rest]

end

mutual

theorem Operation.withoutQubits_rename : ∀ op : Operation R,
    (op.rename f).withoutQubits = op.withoutQubits
  | .record r => congrArg Operation.record r.withoutQubits_rename
  | .block b body => by
    rw [Operation.rename, Operation.withoutQubits, Operation.withoutQubits, b.withoutQubits_rename,
      Circuit.withoutQubits_rename body]
  | .annotated op note => by
    rw [Operation.rename, Operation.withoutQubits, Operation.withoutQubits,
      op.withoutQubits_rename]

theorem Circuit.withoutQubits_rename : ∀ c : List (Operation R),
    Circuit.withoutQubits (Circuit.rename f c) = Circuit.withoutQubits c
  | [] => rfl
  | op :: rest => by
    rw [Circuit.rename, Circuit.withoutQubits, Circuit.withoutQubits, op.withoutQubits_rename,
      Circuit.withoutQubits_rename rest]

end

/-- What is measured of a renamed qubit goes where it went before. -/
theorem Operation.readoutIndex?_rename {op : Operation R} (h : Set.InjOn f {q | q ∈ op.looseKeys})
    {p index : Nat} : (op.rename f).readoutIndex? p = some index ↔
      ∃ q, op.readoutIndex? q = some index ∧ f q = p := by
  cases op with
  | record r =>
    cases r with
    | measureQubit q readout i =>
      simp [Operation.rename, Record.rename, readoutIndex?, and_comm]
    | repeatedMeasurement readout number indices =>
      cases indices with
      | none => simp [Operation.rename, Record.rename, readoutIndex?]
      | some indices =>
        refine (Dict.get?_rename_eq_some h).trans ?_
        simp [readoutIndex?, and_assoc, and_comm]
    | _ => simp [Operation.rename, Record.rename, readoutIndex?]
  | block | annotated => simp [Operation.rename, readoutIndex?]

end

end QuantumOps
