import QuantumOps.Proofs.Exact.Whole
import QuantumOps.Proofs.Kak.Substitution
import QuantumOps.Proofs.Operation.Scalars

/-! Powers, parts and decompositions of gates with symbolic parameters, before and after the symbols
are given values. With the symbolic parameters in parentheses the order never matters. Without them
it does not matter just when the parentheses do not, as for numbers and products; a sum as an angle
is multiplied in its last term only. -/
namespace QuantumOps
open Expression (Phrase Tree Spells Variables numbers isName_of_munch)
open Scalar (number symbol)

variable {R : Type} [Numeric R] {vars : Variables R}

namespace Operation

/-- A gate with its symbolic parameters in parentheses; other operations stay as they are. -/
def grouped : Operation R → Operation R
  | record (.singleQubit g q) => record (.singleQubit (g.map Scalar.grouped) q)
  | record (.twoQubit g c t) => record (.twoQubit (g.map Scalar.grouped) c t)
  | op => op

/-- A rotation with its angle changed; other operations stay as they are. -/
def mapAngle (f : Scalar R → Scalar R) : Operation R → Operation R
  | record (.singleQubit g q) => record (.singleQubit (g.mapAngle f) q)
  | record (.twoQubit g c t) => record (.twoQubit (g.mapAngle f) c t)
  | op => op

variable {op op' : Operation R} {angle : Scalar R}

omit [Numeric R] in
theorem angle?_grouped : op.grouped.angle? = op.angle?.map Scalar.grouped := by
  cases op with
  | record r =>
    cases r with
    | singleQubit g q => exact g.angle?_map _
    | twoQubit g c t => exact g.angle?_map _
    | _ => rfl
  | block b body => rfl
  | annotated op note => rfl

/-- Parentheses around its parameters do not change what a gate becomes. -/
theorem grouped_substitute (hn : ∀ s ∈ op.scalars, s.IsFinite) (h : op.substitute vars = .ok op') :
    op.grouped.substitute vars = .ok op' := by
  cases op with
  | record r =>
    cases r with
    | singleQubit g q =>
      obtain ⟨g', hg, rfl⟩ := SingleGate.substitute_record.mp h
      exact SingleGate.substitute_record.mpr ⟨g', g.grouped_traverse hn hg, rfl⟩
    | twoQubit g c t =>
      obtain ⟨g', hg, rfl⟩ := TwoGate.substitute_record.mp h
      exact TwoGate.substitute_record.mpr ⟨g', g.grouped_traverse hn hg, rfl⟩
    | _ => exact h
  | block b body => exact h
  | annotated op note => exact h

theorem grouped_fits (ht : op.angle? = some angle) (hn : ∀ s ∈ op.scalars, s.IsFinite)
    (h : op.substitute vars = .ok op') : ∀ s ∈ op.grouped.scalars, s.Fits .primary := by
  cases op with
  | record r =>
    cases r with
    | singleQubit g q =>
      obtain ⟨g', hg, -⟩ := SingleGate.substitute_record.mp h
      exact g.grouped_fits hn hg
    | twoQubit g c t =>
      obtain ⟨g', hg, -⟩ := TwoGate.substitute_record.mp h
      exact g.grouped_fits hn hg
    | _ => cases ht
  | block b body => cases ht
  | annotated op note => cases ht

omit [Numeric R] in
theorem angle?_mapScalars (k : Scalar R → Scalar R) :
    (op.mapScalars k).angle? = op.angle?.map k := by
  cases op with
  | record r =>
    cases r with
    | singleQubit g q => exact g.angle?_map k
    | twoQubit g c t => exact g.angle?_map k
    | _ => rfl
  | block b body => rfl
  | annotated op note => rfl

omit [Numeric R] in
/-- The angle of a rotation is the first of its scalars. -/
theorem exists_scalars (ha : op.angle? = some angle) :
    ∃ rest, op.scalars = angle :: rest ∧ ∀ f, (op.mapAngle f).scalars = f angle :: rest := by
  cases op with
  | record r =>
    cases r with
    | singleQubit g q => exact g.exists_parameters ha
    | twoQubit g c t => exact g.exists_parameters ha
    | _ => cases ha
  | block b body => cases ha
  | annotated op note => cases ha

omit [Numeric R] in
theorem mem_scalars_of_angle? (ha : op.angle? = some angle) : angle ∈ op.scalars := by
  obtain ⟨rest, hrest, -⟩ := exists_scalars ha
  rw [hrest]
  exact List.mem_cons_self

theorem rotationPower_eq (ha : op.angle? = some angle) (p : Scalar R) :
    op.rotationPower p = .ok (op.mapAngle (· * p)) := by
  cases op with
  | record r =>
    cases r with
    | singleQubit g q => exact if_pos (Option.isSome_of_eq_some ha)
    | twoQubit g c t => exact if_pos (Option.isSome_of_eq_some ha)
    | _ => cases ha
  | block b body => cases ha
  | annotated op note => cases ha

/-- Rotations that differ in their scalars alone agree just when these do. -/
theorem agrees_mapAngle_iff (ha : op.angle? = some angle) (k f : Scalar R → Scalar R) :
    Agrees ((op.mapAngle f).substitute vars) ((op.mapScalars k).mapAngle f) ↔
      List.Forall₂ (fun s s' => Agrees (s.substitute vars) s') (op.mapAngle f).scalars
        ((op.mapScalars k).mapAngle f).scalars := by
  cases op with
  | record r =>
    cases r with
    | singleQubit g q => exact SingleGate.agrees_iff (by simp)
    | twoQubit g c t => exact TwoGate.agrees_iff (by simp)
    | _ => cases ha
  | block b body => cases ha
  | annotated op note => cases ha

variable [LawfulNumeric R]

/-- A rotation has powers, before and after its symbols have values. They agree just when the
products that are their angles do. -/
theorem exists_power (ha : op.angle? = some angle) (hn : ∀ s ∈ op.scalars, s.IsFinite)
    (h : op.substitute vars = .ok op') (p : R) :
    ∃ q q' angle', op.rotationPower (number p) = .ok q ∧ op'.rotationPower (number p) = .ok q' ∧
      angle.substitute vars = .ok angle' ∧ op'.angle? = some angle' ∧
      (Agrees (q.substitute vars) q' ↔
        Agrees ((angle * number p).substitute vars) (angle' * number p)) := by
  obtain ⟨k, hk, rfl⟩ := traverse_eq_ok_iff.mp h
  have ha' : (op.mapScalars k).angle? = some (k angle) := by
    rw [angle?_mapScalars, ha]
    rfl
  refine ⟨_, _, k angle, rotationPower_eq ha _, rotationPower_eq ha' _,
    hk angle (mem_scalars_of_angle? ha), ha', ?_⟩
  obtain ⟨rest, hrest, hpower⟩ := exists_scalars ha
  obtain ⟨rest', hrest', hpower'⟩ := exists_scalars ha'
  rw [scalars_mapScalars, hrest, List.map_cons, List.cons.injEq] at hrest'
  rw [hrest] at hn hk
  rw [agrees_mapAngle_iff ha, hpower, hpower', ← hrest'.2]
  exact forall₂_agrees_cons_iff (List.forall_mem_cons.mp hn).2 (List.forall_mem_cons.mp hk).2

end Operation

variable (vars) in
/-- The product of a text and a number has the value of the text with its last term multiplied. -/
theorem Scalar.evaluate_mul_number [LawfulNumeric R] {e : String} {t : Tree} {c : R}
    (h : Spells .sum e t) (hc : Numeric.isFinite c) (hzero : (c == 0) = false)
    (hone : (c == 1) = false) :
    ∃ factor, factor.value (numbers vars) = some c ∧
      ∀ v, (symbol e * number c).evaluate vars = .ok v ↔
        (t.timesLast factor).value (numbers vars) = some v ∧ Numeric.isFinite v := by
  obtain ⟨factor, hfactor, hvalue⟩ := format_spells hc
  refine ⟨factor, hvalue vars, fun v => ?_⟩
  have hproduct : symbol e * number c = operation (symbol e) "*" (number c) := by
    change (if (symbol e : Scalar R).isZero || (number c).isZero then number 0
      else if (symbol e : Scalar R).isOne then number c
      else if (number c).isOne then symbol e else operation (symbol e) "*" (number c)) = _
    simp [isZero, isOne, hzero, hone]
  have hspells : Spells .primary ("(" ++ e ++ " " ++ "*" ++ " " ++ Numeric.format c ++ ")")
      (.group (t.timesLast factor)) := (h.timesLast hfactor).operation
  have hvalue : (Tree.group (t.timesLast factor)).value (numbers vars) =
      (t.timesLast factor).value (numbers vars) := by
    rw [Tree.value]
    exact congrFun Option.map_id _
  rw [hproduct, operation, evaluate, evaluateFinite_eq_ok_iff, expression, expression,
    (hspells.mono (by decide)).evaluate, hvalue]

variable (vars) in
/-- How the power of a rotation with symbols, once these have values, compares with the power of the
rotation with values. It is always right with the symbolic parameters in parentheses. Without them
it is right just when that makes no difference, which is when multiplying only the last term of the
angle, if there is a factor other than zero and one, comes to the same. -/
def PowerCommutes (op op' : Operation R) (angle : Scalar R) (p : R) : Prop :=
  ∃ q careful q' angle', op.rotationPower (number p) = .ok q ∧
    op.grouped.rotationPower (number p) = .ok careful ∧ op'.rotationPower (number p) = .ok q' ∧
    op'.angle? = some angle' ∧ ((angle' * number p).IsFinite →
      AgreesWithCare (q.substitute vars) (careful.substitute vars) q' (angle.Fits .product) ∧
      ∀ {e : String} {t : Tree}, angle = symbol e → Spells .sum e t → (p == 0) = false →
        (p == 1) = false → ∃ factor, factor.value (numbers vars) = some p ∧
          (Agrees (q.substitute vars) q' ↔
            ∃ v, (t.timesLast factor).value (numbers vars) = some v ∧ Numeric.isFinite v ∧
              number v == angle' * number p))

theorem Operation.power_commutes [RegularNumeric R] {op op' : Operation R} {angle : Scalar R}
    (ha : op.angle? = some angle) (hn : ∀ s ∈ op.scalars, s.IsFinite)
    (h : op.substitute vars = .ok op') (p : R) : PowerCommutes vars op op' angle p := by
  have ha' : op.grouped.angle? = some angle.grouped := by
    rw [angle?_grouped, ha]
    rfl
  have hfits := grouped_fits ha hn h
  obtain ⟨q, q', angle', hq, hq', hangle, hop', hiff⟩ := exists_power ha hn h p
  obtain ⟨careful, q₂, angle₂, hcareful, hq₂, hangle₂, hop₂, hiff'⟩ :=
    exists_power ha' (fun s hs => (hfits s hs).isFinite) (grouped_substitute hn h) p
  rw [hq', Except.ok.injEq] at hq₂
  rw [hop', Option.some.injEq] at hop₂
  subst hq₂ hop₂
  refine ⟨q, careful, q', angle', hq, hcareful, hq', hop', fun hr => ⟨.intro ?_ ?_, ?_⟩⟩
  · have hgrouped : angle.grouped.Fits .product :=
      (hfits _ (mem_scalars_of_angle? ha')).mono (by decide)
    exact hiff'.mpr (((hgrouped.follows hangle₂).mul (r := .sum) .number).agrees hr)
  · intro hproduct
    exact hiff.mpr (((hproduct.follows hangle).mul (r := .sum) .number).agrees hr)
  · rintro e t rfl ht hzero hone
    obtain ⟨a, -, rfl⟩ := Scalar.substitute_eq_ok.mp hangle
    have hp := (RegularNumeric.finite_mul hr).2
    obtain ⟨factor, hfactor, hvalue⟩ := Scalar.evaluate_mul_number vars ht hp hzero hone
    refine ⟨factor, hfactor, hiff.trans ⟨?_, ?_⟩⟩
    · rintro ⟨z, hz, hbeq⟩
      obtain ⟨v, hv, rfl⟩ := Scalar.substitute_eq_ok.mp hz
      obtain ⟨htree, hfinite⟩ := (hvalue v).mp hv
      exact ⟨v, htree, hfinite, hbeq⟩
    · rintro ⟨v, htree, hfinite, hbeq⟩
      have hv := (hvalue v).mpr ⟨htree, hfinite⟩
      exact ⟨number v, Scalar.substitute_eq_ok.mpr ⟨v, hv, rfl⟩, hbeq⟩

/-- The values one and three for two names. -/
def oneAndThree : Variables Whole :=
  (Dict.empty.insert "theta" (.value 1)).insert "phi" (.value 3)

theorem spells_theta : Spells .primary "theta" (.name "theta") :=
  .name (isName_of_munch rfl rfl rfl)

theorem spells_phi : Spells .primary "phi" (.name "phi") :=
  .name (isName_of_munch rfl rfl rfl)

theorem spells_theta_add_phi : Spells .sum "theta + phi" (.add (.name "theta") (.name "phi")) :=
  (spells_theta.mono (by decide)).add (spells_phi.mono (by decide))

theorem has_theta_add_phi : (symbol "theta + phi").Has oneAndThree .sum (.value 4) :=
  ⟨_, spells_theta_add_phi, rfl⟩

theorem substitute_theta_add_phi :
    (symbol "theta + phi").substitute oneAndThree = .ok (number (.value 4)) :=
  Scalar.substitute_eq_ok.mpr ⟨_, has_theta_add_phi.evaluate rfl, rfl⟩

theorem substitute_theta_sub_theta :
    (symbol "theta - theta").substitute oneAndThree = .ok (number (.value 0)) := by
  have hspells : Spells .sum "theta - theta" (.sub (.name "theta") (.name "theta")) :=
    (spells_theta.mono (by decide)).sub (spells_theta.mono (by decide))
  have h : (symbol "theta - theta").Has oneAndThree .sum (.value 0) := ⟨_, hspells, rfl⟩
  exact Scalar.substitute_eq_ok.mpr ⟨_, h.evaluate rfl, rfl⟩

/-- Only the second term is doubled. -/
theorem substitute_theta_add_phi_mul_two :
    (symbol "theta + phi" * number (Whole.value 2)).substitute oneAndThree =
      .ok (number (.value 7)) := by
  obtain ⟨factor, hfactor, hvalue⟩ := Scalar.evaluate_mul_number oneAndThree
    (c := Whole.value 2) spells_theta_add_phi rfl rfl rfl
  have htree : ((Tree.add (.name "theta") (.name "phi")).timesLast factor).value
      (numbers oneAndThree) = some (.value 7) := by
    rw [Tree.timesLast, Tree.value, Tree.value, Tree.value, hfactor]
    rfl
  exact Scalar.substitute_eq_ok.mpr ⟨_, (hvalue _).mpr ⟨htree, rfl⟩, rfl⟩

theorem substitute_rotateX {a : Scalar R} {v : Scalar R} (h : a.substitute vars = .ok v) (q : Nat) :
    (Operation.record (.singleQubit (.rotateX a) q)).substitute vars =
      .ok (.record (.singleQubit (.rotateX v) q)) := by
  refine SingleGate.substitute_record.mpr ⟨.rotateX v, ?_, rfl⟩
  rw [SingleGate.traverse, h]
  rfl

/-- Powers of rotations, parts of gates on one qubit and canonical decompositions of gates on two,
taken before the symbolic parameters have values and after. Parentheses around the parameters make
the two agree, and without them they agree just when the parentheses make no difference, as where a
parameter is a number or one product. -/
theorem substitution_commutes [RegularNumeric R] (vars : Variables R) :
    (∀ {op op' : Operation R} {angle : Scalar R} (p : R), op.angle? = some angle →
      (∀ s ∈ op.scalars, s.IsFinite) → op.substitute vars = .ok op' →
      PowerCommutes vars op op' angle p) ∧
    (∀ {g g' : SingleGate (Scalar R)}, (∀ s ∈ g.parameters.map Prod.snd, s.IsFinite) →
      g.traverse (Scalar.substitute vars) = .ok g' → (∀ s ∈ g'.parts.toList, s.IsFinite) →
      AgreesWithCare (g.parts.toList.mapM (Scalar.substitute vars))
        ((g.map Scalar.grouped).parts.toList.mapM (Scalar.substitute vars)) g'.parts.toList
        (∀ angle, g.angle? = some angle → angle.Fits .product)) ∧
    ∀ {g g' : TwoGate (Scalar R)} {c t : Nat}, (∀ s ∈ g.parameters.map Prod.snd, s.IsFinite) →
      g.traverse (Scalar.substitute vars) = .ok g' → (∀ s ∈ (g'.kak c t).scalars, s.IsFinite) →
      AgreesWithCare ((g.kak c t).substitute vars)
        (((g.map Scalar.grouped).kak c t).substitute vars) (g'.kak c t) g.Fits := by
  refine ⟨?_, ?_, ?_⟩
  · intro op op' angle p ha hn h
    exact Operation.power_commutes ha hn h p
  · intro g g' hn h hr
    have hfits := g.grouped_fits hn h
    have hangle : ∀ angle, (g.map Scalar.grouped).angle? = some angle → angle.Fits .product :=
      fun angle ha => (hfits angle (SingleGate.mem_parameters_of_angle? ha)).mono (by decide)
    refine .intro ?_ fun hp => SingleGate.parts_agree hp hn h hr
    exact SingleGate.parts_agree hangle (fun s hs => (hfits s hs).isFinite)
      (g.grouped_traverse hn h) hr
  · intro g g' c t hn h hr
    refine .intro ?_ fun hp => TwoGate.kak_agrees hp h hr
    exact TwoGate.kak_agrees (TwoGate.fits_of_primary (g.grouped_fits hn h))
      (g.grouped_traverse hn h) hr

/-- In parentheses, twice the rotation by the sum is right. So are the parts of a rotation by
nothing and the decomposition of an interaction by the sum. -/
theorem substitution_commutes_sum :
    let rotation (angle : Scalar Whole) : Operation Whole :=
      .record (.singleQubit (.rotateX angle) 0)
    let parts (angle : Scalar Whole) : List (Scalar Whole) :=
      (SingleGate.rotateX angle).parts.toList
    let xy (angle : Scalar Whole) : Kak Whole := TwoGate.kak (.xy angle) 0 1
    (∃ q, (rotation (symbol "(theta + phi)")).rotationPower (number (.value 2)) = .ok q ∧
      Agrees (q.substitute oneAndThree) (rotation (number (.value 8)))) ∧
    Agrees ((parts (symbol "(theta - theta)")).mapM (Scalar.substitute oneAndThree))
      (parts (number (.value 0))) ∧
    Agrees ((xy (symbol "(theta + phi)")).substitute oneAndThree) (xy (number (.value 4))) := by
  intro rotation parts xy
  have hrotateX : (SingleGate.rotateX (symbol "theta - theta")).traverse
      (Scalar.substitute oneAndThree) = .ok (.rotateX (number (.value 0))) := by
    rw [SingleGate.traverse, substitute_theta_sub_theta]
    rfl
  have hxy : (TwoGate.xy (symbol "theta + phi")).traverse (Scalar.substitute oneAndThree) =
      .ok (.xy (number (.value 4))) := by
    rw [TwoGate.traverse, substitute_theta_add_phi]
    rfl
  obtain ⟨hpower, hparts, hkak⟩ := substitution_commutes oneAndThree
  refine ⟨?_, (hparts (by decide) hrotateX (by decide)).always,
    (hkak (by decide) hxy (by decide)).always⟩
  obtain ⟨q, careful, q', angle', -, hcareful, hq', hangle, h⟩ := hpower (Whole.value 2)
    (show (rotation (symbol "theta + phi")).angle? = _ from rfl) (by decide)
    (substitute_rotateX substitute_theta_add_phi 0)
  cases hangle
  cases hq'
  exact ⟨careful, hcareful, (h rfl).1.always⟩

/-- Twice a rotation by four is one by eight, but not if the rotation is by a sum of symbols that
get their values later. -/
theorem power_of_sum :
    let rotation (angle : Scalar Whole) : Operation Whole :=
      .record (.singleQubit (.rotateX angle) 0)
    let two : Scalar Whole := number (.value 2)
    (∃ op', (rotation (symbol "theta + phi")).substitute oneAndThree = .ok op' ∧
      op'.rotationPower two = .ok (rotation (number (.value 8)))) ∧
    (∃ q, (rotation (symbol "theta + phi")).rotationPower two = .ok q ∧
      q.substitute oneAndThree = .ok (rotation (number (.value 7)))) ∧
    (rotation (number (.value 7)) == rotation (number (.value 8))) = false := by
  intro rotation two
  refine ⟨⟨rotation (number (.value 4)), ?_, rfl⟩, ⟨_, rfl, ?_⟩, rfl⟩
  · exact substitute_rotateX substitute_theta_add_phi 0
  · exact substitute_rotateX substitute_theta_add_phi_mul_two 0

end QuantumOps
