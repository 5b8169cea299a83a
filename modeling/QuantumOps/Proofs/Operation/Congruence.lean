import QuantumOps.Proofs.Numeric.Equality
import QuantumOps.Proofs.Operation.Numbers
import QuantumOps.Proofs.Operation.Values

/-! Operations are equal just when they are the same up to equality of their numbers, each of which
equals itself. Nothing that is asked of operations or done with them tells equal numbers apart, so
that equal operations give equal answers and equal results. -/
namespace QuantumOps

/-- Two things are equal when the first is sound and the images of both are the same. -/
def EqualBy {α β : Type} [BEq α] (sound : α → Prop) (f : α → β) : Prop :=
  ∀ x y : α, x == y ↔ sound x ∧ f x = f y

namespace EqualBy

variable {α β : Type} [BEq α] {sound : α → Prop} {f : α → β} (h : EqualBy sound f)
include h

theorem list : ∀ xs ys : List α, xs == ys ↔ (∀ x ∈ xs, sound x) ∧ xs.map f = ys.map f
  | [], ys => by cases ys <;> simp
  | x :: xs, [] => by simp
  | x :: xs, y :: ys => by
    rw [List.cons_beq_cons, Bool.and_eq_true, h, list xs ys, List.forall_mem_cons, List.map_cons,
      List.map_cons, List.cons.injEq]
    exact and_and_and_comm

theorem triple (s t : Triple α) : s == t ↔ (∀ x ∈ s.toList, sound x) ∧ s.map f = t.map f := by
  change (s.first == t.first && s.second == t.second && s.third == t.third) = true ↔ _
  rw [Bool.and_eq_true, Bool.and_eq_true, h, h, h]
  simp only [Triple.toList, Triple.map, List.forall_mem_cons, Triple.mk.injEq]
  grind

end EqualBy

section
variable {α β : Type}

/-- The name of a gate and its parameters determine it. -/
theorem SingleGate.eq_iff {g g' : SingleGate α} : g = g' ↔
    g.name = g'.name ∧ g.parameters.map Prod.snd = g'.parameters.map Prod.snd := by
  cases g <;> cases g' <;> simp [name, parameters]

theorem TwoGate.eq_iff {g g' : TwoGate α} : g = g' ↔
    g.name = g'.name ∧ g.parameters.map Prod.snd = g'.parameters.map Prod.snd := by
  cases g <;> cases g' <;> simp [name, parameters]

variable [BEq α] {sound : α → Prop} {f : α → β} (h : EqualBy sound f)
include h

theorem SingleGate.beq_iff {g g' : SingleGate α} : g.beq g' ↔
    (∀ a ∈ g.parameters.map Prod.snd, sound a) ∧ g.map f = g'.map f := by
  have hname : (g.name == g'.name) = true ↔ g.name = g'.name := beq_iff_eq
  rw [beq, Bool.and_eq_true, hname, h.list, eq_iff (g := g.map f), name_map, name_map,
    parameters_map, parameters_map]
  exact and_left_comm

theorem TwoGate.beq_iff {g g' : TwoGate α} : g.beq g' ↔
    (∀ a ∈ g.parameters.map Prod.snd, sound a) ∧ g.map f = g'.map f := by
  have hname : (g.name == g'.name) = true ↔ g.name = g'.name := beq_iff_eq
  rw [beq, Bool.and_eq_true, hname, h.list, eq_iff (g := g.map f), name_map, name_map,
    parameters_map, parameters_map]
  exact and_left_comm

end

section
variable {R S : Type} [Numeric R] {sound : R → Prop} {f : R → S}

theorem EqualBy.scalar (h : EqualBy sound f) (s t : Scalar R) :
    s == t ↔ (∀ x ∈ s.numbers, sound x) ∧ s.mapNumber f = t.mapNumber f := by
  cases s with
  | number x =>
    cases t with
    | number y =>
      change (x == y) = true ↔ _
      simp [h x y, Scalar.numbers, Scalar.mapNumber]
    | symbol e => simp [Scalar.mapNumber, BEq.beq, Scalar.beq]
  | symbol e =>
    cases t with
    | number y => simp [Scalar.mapNumber, BEq.beq, Scalar.beq]
    | symbol e' =>
      change (e == e') = true ↔ _
      simp [Scalar.numbers, Scalar.mapNumber]

theorem EqualBy.amplitude (h : EqualBy sound f) (z w : Amplitude R) :
    z == w ↔ (∀ x ∈ z.numbers, sound x) ∧ z.map f = w.map f := by
  change (z.re == w.re && z.im == w.im) = true ↔ _
  rw [Bool.and_eq_true, h, h]
  simp only [Amplitude.numbers, Amplitude.map, List.forall_mem_cons, Amplitude.mk.injEq]
  grind

theorem Noise.beq_iff_mapNumbers (h : EqualBy sound f) {c d : Noise R} : c.beq d ↔
    ((∀ s ∈ c.rates.map Prod.snd, ∀ x ∈ s.numbers, sound x) ∧ ∀ x ∈ c.plainNumbers, sound x) ∧
      c.mapNumbers f = d.mapNumbers f := by
  cases c <;> cases d <;>
    simp [beq, name, rates, mapNumbers, plainNumbers, h.scalar, EqualBy.triple h.triple,
      -List.mem_flatMap, List.forall_mem_flatMap, and_and_and_comm]

theorem Record.beq_iff (h : EqualBy sound f) {r s : Record R} :
    r.beq s ↔ (∀ x ∈ r.numbers, sound x) ∧ r.mapNumbers f = s.mapNumbers f := by
  have hnumber : ∀ x y : R, (x == y) = true ↔ sound x ∧ f x = f y := h
  have hamplitudes := EqualBy.list h.amplitude
  have hrows := EqualBy.list hamplitudes
  have hsingle {g g' : SingleGate (Scalar R)} : g.beq g' ↔ _ := SingleGate.beq_iff h.scalar
  have htwo {g g' : TwoGate (Scalar R)} : g.beq g' ↔ _ := TwoGate.beq_iff h.scalar
  have hnoise {c d : Noise R} := Noise.beq_iff_mapNumbers h (c := c) (d := d)
  rw [numbers, List.forall_mem_append, List.forall_mem_flatMap]
  cases r <;> cases s <;> first
    | (simp only [beq, mapNumbers, reduceCtorEq, and_false, Bool.false_eq_true]; done)
    | (simp only [beq, mapNumbers, Bool.and_eq_true, hnumber, hamplitudes, hrows, hsingle, htwo,
        h.scalar _, hnoise, scalars, plainNumbers, List.forall_mem_flatMap, List.forall_mem_cons,
        List.not_mem_nil, IsEmpty.forall_iff, implies_true, beq_iff_eq]
       grind)

theorem Block.beq_iff (h : EqualBy sound f) {b c : Block R} :
    b.beq c ↔ (∀ x ∈ b.numbers, sound x) ∧ b.mapNumbers f = c.mapNumbers f := by
  rw [numbers, List.forall_mem_flatMap]
  cases b <;> cases c <;> simp [beq, mapNumbers, scalars, h.scalar _]

mutual

theorem Operation.beq_iff (h : EqualBy sound f) : ∀ {a b : Operation R},
    a.beq b ↔ (∀ x ∈ a.numbers, sound x) ∧ a.mapNumbers f = b.mapNumbers f
  | .record r, b => by
    rw [Operation.numbers_record]
    cases b with
    | record s =>
      rw [Operation.mapNumbers, Operation.mapNumbers, Operation.record.injEq]
      exact Record.beq_iff h
    | block | annotated => simp [Operation.beq, Operation.mapNumbers]
  | .block b body, c => by
    cases c with
    | block c body' =>
      have hblock : (b == c) = true ↔ _ := Block.beq_iff h
      rw [Operation.beq, Bool.and_eq_true, hblock, Circuit.beq_iff h, Operation.numbers_block,
        List.forall_mem_append, Operation.mapNumbers, Operation.mapNumbers,
        Operation.block.injEq]
      exact and_and_and_comm
    | record | annotated => simp [Operation.beq, Operation.mapNumbers]
  | .annotated op note, b => by
    cases b with
    | annotated op' note' =>
      rw [Operation.beq, Bool.and_eq_true, Operation.beq_iff h, beq_iff_eq,
        Operation.numbers_annotated, Operation.mapNumbers, Operation.mapNumbers,
        Operation.annotated.injEq, and_assoc]
    | record | block => simp [Operation.beq, Operation.mapNumbers]

theorem Circuit.beq_iff (h : EqualBy sound f) : ∀ {c d : List (Operation R)},
    Circuit.beq c d ↔
      (∀ x ∈ Circuit.numbers c, sound x) ∧ Circuit.mapNumbers f c = Circuit.mapNumbers f d
  | [], d => by cases d <;> simp [Circuit.beq, Circuit.mapNumbers]
  | op :: rest, d => by
    cases d with
    | nil => simp [Circuit.beq, Circuit.mapNumbers]
    | cons op' rest' =>
      rw [Circuit.beq, Bool.and_eq_true, Operation.beq_iff h, Circuit.beq_iff h,
        Circuit.numbers_cons, List.forall_mem_append, Circuit.mapNumbers, Circuit.mapNumbers,
        List.cons.injEq]
      exact and_and_and_comm

end

end

/-! Results of equal operations. -/

/-- Both fail in the same way, or both give results that are equal. -/
def SameOutcome {ε α : Type} [BEq α] : Except ε α → Except ε α → Prop
  | .ok a, .ok b => a == b
  | .error e, .error e' => e = e'
  | _, _ => False

section
variable {R S : Type} [Numeric R] {sound : R → Prop} {f : R → S}

/-- Outcomes that are the same up to equality of numbers, with numbers that equal themselves. -/
theorem SameOutcome.of_mapNumbers {ε : Type} (h : EqualBy sound f)
    {x y : Except ε (Operation R)}
    (heq : Operation.mapNumbers f <$> x = Operation.mapNumbers f <$> y)
    (hsound : ∀ op, x = .ok op → ∀ n ∈ op.numbers, sound n) : SameOutcome x y := by
  cases x with
  | error e =>
    cases y with
    | error e' => exact Except.error.inj heq
    | ok b => cases heq
  | ok a =>
    cases y with
    | error e' => cases heq
    | ok b => exact (Operation.beq_iff h).mpr ⟨hsound a rfl, Except.ok.inj heq⟩

/-- The value of a scalar up to equality of numbers; a symbol has the same one on either side. -/
def Scalar.substituteBy (f : R → S) (vars : Expression.Variables R) :
    Scalar S → Except Expression.Error (Scalar S)
  | number x => .ok (number x)
  | symbol e => mapNumber f <$> substitute vars (symbol e)

theorem Scalar.substituteBy_mapNumber (vars : Expression.Variables R) (s : Scalar R) :
    (s.mapNumber f).substituteBy f vars = mapNumber f <$> substitute vars s := by
  cases s <;> rfl

theorem Operation.substitute_sameOutcome (h : EqualBy sound f)
    (hfinite : ∀ x, Numeric.isFinite x = true → sound x) {a b : Operation R} (hab : a.beq b)
    (vars : Expression.Variables R) : SameOutcome (a.substitute vars) (b.substitute vars) := by
  obtain ⟨hsound, hmap⟩ := (beq_iff h).mp hab
  have hvalue : ∀ s : Scalar R, (s.mapNumber f).substituteBy f vars =
      Scalar.mapNumber f <$> Scalar.substitute vars s := Scalar.substituteBy_mapNumber vars
  refine .of_mapNumbers h ?_ fun op hop => ?_
  · rw [substitute, substitute, ← traverse_mapNumbers hvalue, ← traverse_mapNumbers hvalue, hmap]
  · obtain ⟨v, hv, hnumber, rfl⟩ := exists_values_of_substitute hop
    refine forall_numbers_mapScalars hsound fun s hs hnumbers => ?_
    cases s with
    | number x => rwa [hnumber]
    | symbol e =>
      exact List.forall_mem_singleton.mpr
        (hfinite _ (Scalar.evaluateFinite_eq_ok_iff.mp (hv _ hs)).2)

theorem Operation.remap_sameOutcome (h : EqualBy sound f) {a b : Operation R} (hab : a.beq b)
    (m : Mapping) : SameOutcome (a.remap m) (b.remap m) := by
  obtain ⟨hsound, hmap⟩ := (beq_iff h).mp hab
  refine .of_mapNumbers h ?_ fun op hop => ?_
  · rw [← remap_mapNumbers, ← remap_mapNumbers, hmap]
  · rw [(remap_eq_ok.mp hop).2, numbers_rename]
    exact hsound

end

namespace Operation

theorem equalBy_level : EqualBy (fun x : Float => x.isNaN = false) Double.level :=
  fun _ _ => Double.beq_iff_level

/-- Equality of operations is symmetric and transitive, and an operation equals itself just when all
its numbers, inside and out, have a value. Equal operations have the same name, tags, parameters or
none, qubits and version, and substitution and remapping either fail in the same way on both or give
equal operations. -/
theorem beq_congruence :
    (∀ a : Operation Float, a == a ↔ ∀ x ∈ a.numbers, x.isNaN = false) ∧
    (∀ a b : Operation Float, a == b → b == a) ∧
    (∀ a b c : Operation Float, a == b → b == c → a == c) ∧
    (∀ a b : Operation Float, (a != b) = !(a == b)) ∧
    ∀ a b : Operation Float, a == b →
      a.name = b.name ∧ a.tags = b.tags ∧ a.isParametrized = b.isParametrized ∧
      a.involved = b.involved ∧ a.minimumVersion = b.minimumVersion ∧
      (∀ vars, SameOutcome (a.substitute vars) (b.substitute vars)) ∧
      ∀ m, SameOutcome (a.remap m) (b.remap m) := by
  refine ⟨fun a => ?_, fun _ _ => BEq.symm, fun _ _ _ => BEq.trans, fun _ _ => rfl, ?_⟩
  · exact (beq_iff equalBy_level).trans (and_iff_left rfl)
  · intro a b hab
    obtain ⟨-, hmap⟩ := (beq_iff equalBy_level).mp hab
    have houtline : a.outline = b.outline := by
      rw [← a.outline_mapNumbers (f := Double.level), hmap, b.outline_mapNumbers]
    refine ⟨name_congr houtline, ?_, ?_, ?_, minimumVersion_congr houtline,
      substitute_sameOutcome equalBy_level (fun x => Double.isNaN_of_isFinite) hab,
      remap_sameOutcome equalBy_level hab⟩
    · rw [← a.tags_mapNumbers (f := Double.level), hmap, b.tags_mapNumbers]
    · rw [← a.isParametrized_mapNumbers (f := Double.level), hmap, b.isParametrized_mapNumbers]
    · rw [← a.involved_mapNumbers (f := Double.level), hmap, b.involved_mapNumbers]

/-- The two zeros in a state, in a gate and as a count. -/
theorem beq_congruence_zeros :
    let op (zero : Float) : Operation Float := .annotated (.block (.loop (.number zero))
      [.record (.setStateVector [⟨zero, 1⟩]), .record (.singleQubit (.rotateX (.number zero)) 0)])
      "note"
    op 0 == op (-0) ∧ SameOutcome ((op 0).substitute Dict.empty) ((op (-0)).substitute Dict.empty) ∧
      SameOutcome ((op 0).remap (.ofList [(0, 1)])) ((op (-0)).remap (.ofList [(0, 1)])) := by
  intro op
  have hequal : op 0 == op (-0) := by decide
  obtain ⟨-, -, -, -, -, hsubstitute, hremap⟩ := beq_congruence.2.2.2.2 (op 0) (op (-0)) hequal
  exact ⟨hequal, hsubstitute _, hremap _⟩

end Operation

end QuantumOps
