import QuantumOps.Kak
import QuantumOps.Proofs.Gate.Substitution

/-! Canonical decompositions before and after the symbolic parameters are given values. A parameter
agrees in all places where the decomposition puts it if it is one phrase of the kind that the
tightest of these places asks for. -/
namespace QuantumOps
open Expression (Phrase Variables)
open Scalar (number Follows)

variable {R : Type} [Numeric R] {vars : Variables R}

namespace Kak

/-- The values in the places of the scalars, inside the circuits too. -/
def substitute (vars : Variables R) (k : Kak R) : Except Expression.Error (Kak R) := do
  let phase ← k.globalPhase.substitute vars
  let x ← k.strengths.first.substitute vars
  let y ← k.strengths.second.substitute vars
  let z ← k.strengths.third.substitute vars
  let before ← k.before.mapM (Circuit.substitute vars)
  let after ← k.after.mapM (Circuit.substitute vars)
  return ⟨phase, ⟨x, y, z⟩, before, after⟩

/-- All scalars, those of the circuits last. -/
def scalars (k : Kak R) : List (Scalar R) :=
  k.globalPhase :: k.strengths.toList ++ Circuit.scalars (k.before.getD []) ++
    Circuit.scalars (k.after.getD [])

end Kak

/-- A rotation about one of the axes on the same qubit as another, with an angle that follows. -/
inductive TurnFollows (vars : Variables R) :
    SingleGate (Scalar R) × Nat → SingleGate (Scalar R) × Nat → Prop
  | x {s s' : Scalar R} {q : Nat} (h : Follows vars .sum s s') :
    TurnFollows vars (.rotateX s, q) (.rotateX s', q)
  | y {s s' : Scalar R} {q : Nat} (h : Follows vars .sum s s') :
    TurnFollows vars (.rotateY s, q) (.rotateY s', q)
  | z {s s' : Scalar R} {q : Nat} (h : Follows vars .sum s s') :
    TurnFollows vars (.rotateZ s, q) (.rotateZ s', q)

/-- No circuit, or rotations that follow one by one. -/
inductive TurnsFollow (vars : Variables R) : Option (Circuit R) → Option (Circuit R) → Prop
  | none : TurnsFollow vars none none
  | rotations {gs gs' : List (SingleGate (Scalar R) × Nat)}
    (h : List.Forall₂ (TurnFollows vars) gs gs') :
    TurnsFollow vars (TwoGate.rotations gs) (TwoGate.rotations gs')

/-- A decomposition with scalars that follow those of another. -/
structure Kak.Follows (vars : Variables R) (k k' : Kak R) : Prop where
  globalPhase : Scalar.Follows vars .sum k.globalPhase k'.globalPhase
  first : Scalar.Follows vars .sum k.strengths.first k'.strengths.first
  second : Scalar.Follows vars .sum k.strengths.second k'.strengths.second
  third : Scalar.Follows vars .sum k.strengths.third k'.strengths.third
  before : TurnsFollow vars k.before k'.before
  after : TurnsFollow vars k.after k'.after

section
variable [LawfulNumeric R]

theorem TurnFollows.agrees {g g' : SingleGate (Scalar R) × Nat} (h : TurnFollows vars g g')
    (hr : ∀ s ∈ (Operation.record (.singleQubit g'.1 g'.2) : Operation R).scalars, s.IsFinite) :
    Agrees ((Operation.record (.singleQubit g.1 g.2)).substitute vars)
      (.record (.singleQubit g'.1 g'.2)) := by
  cases h with
  | x h =>
    refine (SingleGate.agrees_iff ?_).mpr (.cons (h.agrees (hr _ (.head _))) .nil)
    rfl
  | y h =>
    refine (SingleGate.agrees_iff ?_).mpr (.cons (h.agrees (hr _ (.head _))) .nil)
    rfl
  | z h =>
    refine (SingleGate.agrees_iff ?_).mpr (.cons (h.agrees (hr _ (.head _))) .nil)
    rfl

theorem circuit_agrees {gs gs' : List (SingleGate (Scalar R) × Nat)}
    (h : List.Forall₂ (TurnFollows vars) gs gs')
    (hr : ∀ s ∈ Circuit.scalars (gs'.map fun g => (.record (.singleQubit g.1 g.2) : Operation R)),
      s.IsFinite) :
    Agrees (Circuit.substitute vars (gs.map fun g => .record (.singleQubit g.1 g.2)))
      (gs'.map fun g => .record (.singleQubit g.1 g.2)) := by
  induction h with
  | nil => exact ⟨[], rfl, rfl⟩
  | cons hg _ ih =>
    rw [List.map_cons, Circuit.scalars, List.forall_mem_append] at hr
    obtain ⟨op, hop, hbeq⟩ := hg.agrees hr.1
    obtain ⟨rest, hrest, hbeq'⟩ := ih hr.2
    refine ⟨op :: rest, ?_, ?_⟩
    · rw [Circuit.substitute] at hrest ⊢
      rw [Operation.substitute] at hop
      rw [List.map_cons, Circuit.traverse, hop, hrest]
      rfl
    · rw [List.map_cons, List.cons_beq_cons, hbeq, hbeq']
      rfl

theorem TurnsFollow.agrees {c c' : Option (Circuit R)} (h : TurnsFollow vars c c')
    (hr : ∀ s ∈ Circuit.scalars (c'.getD []), s.IsFinite) :
    Agrees (c.mapM (Circuit.substitute vars)) c' := by
  cases h with
  | none => exact ⟨Option.none, rfl, rfl⟩
  | rotations h =>
    obtain ⟨c, hc, hbeq⟩ := circuit_agrees h hr
    refine ⟨some c, ?_, hbeq⟩
    rw [TwoGate.rotations, Option.mapM_some, hc]
    rfl

/-- What follows a decomposition evaluates to it. -/
theorem Kak.Follows.agrees {k k' : Kak R} (h : k.Follows vars k')
    (hr : ∀ s ∈ k'.scalars, s.IsFinite) : Agrees (k.substitute vars) k' := by
  simp only [scalars, Triple.toList, List.cons_append, List.nil_append, List.forall_mem_cons,
    List.forall_mem_append] at hr
  obtain ⟨hphase, hfirst, hsecond, hthird, hbefore, hafter⟩ := hr
  obtain ⟨phase, hphase, hphase'⟩ := h.globalPhase.agrees hphase
  obtain ⟨x, hx, hx'⟩ := h.first.agrees hfirst
  obtain ⟨y, hy, hy'⟩ := h.second.agrees hsecond
  obtain ⟨z, hz, hz'⟩ := h.third.agrees hthird
  obtain ⟨before, hbefore, hbefore'⟩ := h.before.agrees hbefore
  obtain ⟨after, hafter, hafter'⟩ := h.after.agrees hafter
  refine ⟨⟨phase, ⟨x, y, z⟩, before, after⟩, ?_, ?_⟩
  · rw [substitute, hphase, hx, hy, hz, hbefore, hafter]
    rfl
  · have hstrengths : (⟨x, y, z⟩ : Triple (Scalar R)) == k'.strengths := by
      change (x == k'.strengths.first && y == k'.strengths.second &&
        z == k'.strengths.third) = true
      rw [hx', hy', hz']
      rfl
    exact Kak.beq_iff.mpr ⟨hphase', hstrengths, hbefore', hafter'⟩

end

namespace TwoGate

/-- Each parameter is a number or a text that is one phrase of the kind that its places in the
decomposition ask for. -/
def Fits : TwoGate (Scalar R) → Prop
  | xy t | controlledPhaseShift t | variableMSXX t | pmInteraction t => t.Fits .product
  | givensRotation t p | givensRotationLittleEndian t p | phaseShiftedControlledPhase t p =>
    t.Fits .product ∧ p.Fits .product
  | qsim x y z | spinInteraction x y z => x.Fits .unary ∧ y.Fits .unary ∧ z.Fits .unary
  | fsim t u delta => t.Fits .product ∧ u.Fits .product ∧ delta.Fits .product
  | bogoliubov re im | complexPMInteraction re im => re.Fits .unary ∧ im.Fits .unary
  | phaseShiftedControlledZ p => p.Fits .sum
  | _ => True

theorem fits_of_primary {g : TwoGate (Scalar R)}
    (h : ∀ s ∈ g.parameters.map Prod.snd, s.Fits .primary) : g.Fits := by
  have hp : ∀ {p : Phrase}, ∀ s ∈ g.parameters.map Prod.snd, s.Fits p :=
    fun s hs => (h s hs).mono (Phrase.primary_le _)
  cases g <;> simp_all [Fits, parameters]

variable [RegularNumeric R]

section
variable {x x' y y' : Scalar R}

/-- The length of a vector follows the length of its values. -/
theorem norm_follows (hx : Follows vars .unary x x') (hy : Follows vars .unary y y') :
    Follows vars .unary (ComplexScalar.norm ⟨x, y⟩) (ComplexScalar.norm ⟨x', y'⟩) := by
  have hxx : Follows vars .unary (x * x) (x' * x') := hx.mul hx
  have hyy : Follows vars .unary (y * y) (y' * y') := hy.mul hy
  have hsum : Follows vars .unary (x * x + y * y) (x' * x' + y' * y') := hxx.add hyy
  exact hsum.sqrt

omit [RegularNumeric R] in
/-- The angle of a vector follows that of its values, which are the same and not just equal. -/
theorem arg_follows [LawfulNumeric R] (hx : x.Fits .unary) (hy : y.Fits .unary)
    (hx' : x.substitute vars = .ok x') (hy' : y.substitute vars = .ok y') :
    Follows vars .unary (ComplexScalar.arg ⟨x, y⟩) (ComplexScalar.arg ⟨x', y'⟩) := by
  obtain ⟨a, ha, rfl⟩ := Scalar.substitute_eq_ok.mp hx'
  obtain ⟨b, hb, rfl⟩ := Scalar.substitute_eq_ok.mp hy'
  exact (hy.has hb).atan2_follows (hx.has ha)

/-- The length of a vector and the turns by its angle, there and back, follow those of its
values. -/
theorem polar_follows (hx : x.Fits .unary) (hy : y.Fits .unary)
    (hx' : x.substitute vars = .ok x') (hy' : y.substitute vars = .ok y') (q : Nat) :
    let v : ComplexScalar R := ⟨x, y⟩
    let v' : ComplexScalar R := ⟨x', y'⟩
    Follows vars .unary v.norm v'.norm ∧
      TurnsFollow vars (rotations [(.rotateZ v.arg, q)]) (rotations [(.rotateZ v'.arg, q)]) ∧
      TurnsFollow vars (rotations [(.rotateZ (-v.arg), q)])
        (rotations [(.rotateZ (-v'.arg), q)]) := by
  have harg := arg_follows hx hy hx' hy'
  exact ⟨norm_follows (hx.follows hx') (hy.follows hy'),
    .rotations (.cons (.z (harg.mono (by decide))) .nil),
    .rotations (.cons (.z harg.neg) .nil)⟩

end

/-- The decomposition of a gate follows that of the gate with values for its parameters. -/
theorem kak_follows {g g' : TwoGate (Scalar R)} (hfits : g.Fits)
    (h : g.traverse (Scalar.substitute vars) = .ok g') (c t : Nat) :
    (g.kak c t).Follows vars (g'.kak c t) := by
  obtain ⟨k, hk, rfl⟩ := traverse_eq_ok_iff.mp h
  cases g with
  | cnot =>
    exact ⟨.number, .number, .number, .number,
      .rotations (.cons (.z .number) (.cons (.y .number) (.cons (.x .number) .nil))),
      .rotations (.cons (.y .number) .nil)⟩
  | swap => exact ⟨.number, .number, .number, .number, .none, .none⟩
  | iSwap => exact ⟨.number, .number, .number, .number, .none, .none⟩
  | fSwap =>
    exact ⟨.number, .number, .number, .number,
      .rotations (.cons (.z .number) (.cons (.z .number) .nil)), .none⟩
  | sqrtISwap => exact ⟨.number, .number, .number, .number, .none, .none⟩
  | invSqrtISwap => exact ⟨.number, .number, .number, .number, .none, .none⟩
  | xy a =>
    have ha : Follows vars .product a (k a) := hfits.follows (hk a (by simp [parameters]))
    exact ⟨.number, ha.divBy (by simp), ha.divBy (by simp), .number, .none, .none⟩
  | controlledPhaseShift a =>
    have ha : Follows vars .product a (k a) := hfits.follows (hk a (by simp [parameters]))
    have hturn : ∀ q, TurnFollows vars (.rotateZ (a.divBy 2), q) (.rotateZ ((k a).divBy 2), q) :=
      fun q => .z (ha.divBy (by simp))
    exact ⟨ha.divBy (by simp), .number, .number, ha.divBy (by simp),
      .rotations (.cons (hturn c) (.cons (hturn t) .nil)), .none⟩
  | controlledPauliY =>
    exact ⟨.number, .number, .number, .number,
      .rotations (.cons (.z .number) (.cons (.y .number) (.cons (.x .number) .nil))),
      .rotations (.cons (.x .number) .nil)⟩
  | controlledPauliZ =>
    exact ⟨.number, .number, .number, .number,
      .rotations (.cons (.z .number) (.cons (.z .number) .nil)), .none⟩
  | molmerSorensenXX => exact ⟨.number, .number, .number, .number, .none, .none⟩
  | variableMSXX a =>
    have ha : Follows vars .product a (k a) := hfits.follows (hk a (by simp [parameters]))
    exact ⟨.number, ha.mul .number, .number, .number, .none, .none⟩
  | givensRotation a p =>
    have ha : Follows vars .product a (k a) := hfits.1.follows (hk a (by simp [parameters]))
    have hp : Follows vars .product p (k p) := hfits.2.follows (hk p (by simp [parameters]))
    exact ⟨hp.divBy (by simp), ha.divBy (by simp), ha.divBy (by simp), .number,
      .rotations (.cons (.z (hp.add (q := .unary) .number)) .nil),
      .rotations (.cons (.z .number) .nil)⟩
  | givensRotationLittleEndian a p =>
    have ha : Follows vars .product a (k a) := hfits.1.follows (hk a (by simp [parameters]))
    have hp : Follows vars .product p (k p) := hfits.2.follows (hk p (by simp [parameters]))
    exact ⟨hp.divBy (by simp), ha.divBy (by simp), ha.divBy (by simp), .number,
      .rotations (.cons (.z .number) .nil),
      .rotations (.cons (.z (hp.add (q := .unary) .number)) .nil)⟩
  | qsim x y z =>
    obtain ⟨hx, hy, hz⟩ := hfits
    have hquarter : ∀ s ∈ (qsim x y z).parameters.map Prod.snd, s.Fits .unary →
        Follows vars .sum (-s + number (Numeric.pi / 4)) (-(k s) + number (Numeric.pi / 4)) := by
      intro s hs hunary
      have hneg : Follows vars .unary (-s) (-(k s)) := (hunary.follows (hk s hs)).neg
      exact hneg.add (q := .unary) .number
    exact ⟨.number, hquarter x (by simp [parameters]) hx, hquarter y (by simp [parameters]) hy,
      hquarter z (by simp [parameters]) hz, .none, .none⟩
  | fsim a u d =>
    obtain ⟨ha, hu, hd⟩ := hfits
    have ha : Follows vars .unary (a.divBy (-2)) ((k a).divBy (-2)) :=
      (ha.follows (hk a (by simp [parameters]))).divBy (by simp)
    have hd : Follows vars .unary (d.divBy 2) ((k d).divBy 2) :=
      (hd.follows (hk d (by simp [parameters]))).divBy (by simp)
    have hu : Follows vars .product u (k u) := hu.follows (hk u (by simp [parameters]))
    have hhalf : Follows vars .unary (u.divBy (-2)) ((k u).divBy (-2)) := hu.divBy (by simp)
    have hquarter : Follows vars .unary (u.divBy (-4)) ((k u).divBy (-4)) := hu.divBy (by simp)
    have hsum : Follows vars .unary _ _ := ha.add hd
    have hdiff : Follows vars .unary _ _ := ha.sub hd
    exact ⟨hquarter.sub .number, hsum.add (q := .unary) .number, hdiff.add (q := .unary) .number,
      hquarter.mono (by decide), .none,
      .rotations (.cons (.z (hhalf.sub .number)) (.cons (.z (hhalf.sub .number)) .nil))⟩
  | spinInteraction x y z =>
    obtain ⟨hx, hy, hz⟩ := hfits
    exact ⟨.number, (hx.follows (hk x (by simp [parameters]))).neg,
      (hy.follows (hk y (by simp [parameters]))).neg,
      (hz.follows (hk z (by simp [parameters]))).neg, .none, .none⟩
  | bogoliubov re im =>
    obtain ⟨hnorm, hthere, hback⟩ := polar_follows hfits.1 hfits.2 (hk re (by simp [parameters]))
      (hk im (by simp [parameters])) t
    exact ⟨.number, hnorm.divBy (by simp), hnorm.divBy (by simp), .number, hthere, hback⟩
  | pmInteraction a =>
    have ha : Follows vars .product a (k a) := hfits.follows (hk a (by simp [parameters]))
    exact ⟨.number, ha.divBy (by simp), ha.divBy (by simp), .number, .none, .none⟩
  | complexPMInteraction re im =>
    obtain ⟨hnorm, hthere, hback⟩ := polar_follows hfits.1 hfits.2 (hk re (by simp [parameters]))
      (hk im (by simp [parameters])) t
    exact ⟨.number, hnorm.divBy (by simp), hnorm.divBy (by simp), .number, hthere, hback⟩
  | phaseShiftedControlledZ p =>
    have hp : Follows vars .sum p (k p) := hfits.follows (hk p (by simp [parameters]))
    exact ⟨hp.add (q := .unary) .number, .number, .number, .number,
      .rotations (.cons (.z .number) (.cons (.z .number) .nil)),
      .rotations (.cons (.z hp) (.cons (.z hp) .nil))⟩
  | phaseShiftedControlledPhase a p =>
    have ha : Follows vars .product a (k a) := hfits.1.follows (hk a (by simp [parameters]))
    have hp : Follows vars .product p (k p) := hfits.2.follows (hk p (by simp [parameters]))
    have hquarter : Follows vars .unary (a.divBy 4) ((k a).divBy 4) := ha.divBy (by simp)
    have hp' : Follows vars .sum p (k p) := hp.mono (by decide)
    exact ⟨hquarter.add hp, .number, .number, hquarter.mono (by decide),
      .rotations (.cons (.z (ha.divBy (by simp))) (.cons (.z (ha.divBy (by simp))) .nil)),
      .rotations (.cons (.z hp') (.cons (.z hp') .nil))⟩

theorem kak_agrees {g g' : TwoGate (Scalar R)} (hfits : g.Fits)
    (h : g.traverse (Scalar.substitute vars) = .ok g') {c t : Nat}
    (hr : ∀ s ∈ (g'.kak c t).scalars, s.IsFinite) :
    Agrees ((g.kak c t).substitute vars) (g'.kak c t) :=
  (kak_follows hfits h c t).agrees hr

end TwoGate
end QuantumOps
