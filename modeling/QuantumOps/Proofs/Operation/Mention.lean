import QuantumOps.Proofs.Expression.Mention
import QuantumOps.Proofs.Operation.Scalars

/-! The names that the expressions of an operation mention, at any depth. Substitution looks at the
values of these only, also where it fails. -/
namespace QuantumOps

section
variable {R : Type}

/-- The names that a scalar mentions. -/
def Scalar.names : Scalar R → List String
  | number _ => []
  | symbol e => Expression.names e

/-- The names that the scalars of an operation mention, inside and out. -/
def Operation.names (op : Operation R) : List String := op.scalars.flatMap Scalar.names

variable {ε : Type} {f g : Scalar R → Except ε (Scalar R)}

/-- Changes that agree on the scalars of an operation change it alike. -/
theorem Operation.traverse_congr [Inhabited (Scalar R)] {op : Operation R}
    (h : ∀ s ∈ op.scalars, f s = g s) : op.traverse f = op.traverse g := by
  cases hf : op.traverse f with
  | ok op' =>
    obtain ⟨k, hk, hop⟩ := traverse_eq_ok_iff.mp hf
    exact (traverse_eq_ok_iff.mpr ⟨k, fun s hs => h s hs ▸ hk s hs, hop⟩).symm
  | error e =>
    rw [traverse_eq_error_iff, mapM_congr h] at hf
    exact (traverse_eq_error_iff.mpr hf).symm

variable [Numeric R] {vars vars' : Expression.Variables R}

theorem Scalar.substitute_congr {s : Scalar R}
    (h : ∀ name ∈ s.names, vars.get? name = vars'.get? name) :
    s.substitute vars = s.substitute vars' := by
  cases s with
  | number x => rfl
  | symbol e => rw [substitute, substitute, evaluate, evaluate, Expression.evaluateFinite_congr h]

theorem Operation.substitute_congr {op : Operation R}
    (h : ∀ name ∈ op.names, vars.get? name = vars'.get? name) :
    op.substitute vars = op.substitute vars' := by
  exact traverse_congr fun s hs => Scalar.substitute_congr fun name hname =>
    h name (List.mem_flatMap.mpr ⟨s, hs, hname⟩)

/-- A text mentions the names that no parenthesis opens after. It has the same value or the same
failure under assignments that agree on these: other names, those of functions that it calls among
them, have no influence, and a value does not change when a function's name gets a value for the
first time. Operations become the same operation or fail alike under assignments that agree on the
names mentioned inside. -/
theorem Operation.substitute_local :
    (∀ source name : String, name ∈ Expression.names source ↔ ∃ before t rest,
      (Expression.tokenize source).tokens = before ++ t :: rest ∧ t.kind = .identifier ∧
        Expression.Uncalled rest ∧ t.lexeme = name) ∧
    (∀ (source : String) (vars vars' : Expression.Variables R),
      (∀ name ∈ Expression.names source, vars.get? name = vars'.get? name) →
        Expression.evaluate vars source = Expression.evaluate vars' source) ∧
    (∀ (source : String) (vars : Expression.Variables R) (name : String) (x : R),
      name ∉ Expression.names source →
        Expression.evaluate (vars.insert name x) source = Expression.evaluate vars source) ∧
    (∀ (source : String) (vars : Expression.Variables R) (x v : R),
      ∀ f ∈ Expression.functions, vars.get? f.1 = none → Expression.evaluate vars source = .ok v →
        Expression.evaluate (vars.insert f.1 x) source = .ok v) ∧
    ∀ (op : Operation R) (vars vars' : Expression.Variables R),
      (∀ name ∈ op.names, vars.get? name = vars'.get? name) →
        op.substitute vars = op.substitute vars' := by
  refine ⟨fun source name => Expression.mem_mentioned_iff,
    fun source vars vars' h => Expression.evaluate_congr h, fun source vars name x h => ?_,
    fun source vars x v f hf hnone h => ?_, fun op vars vars' h => op.substitute_congr h⟩
  · refine Expression.evaluate_congr fun other hother => ?_
    have hne : other ≠ name := fun heq => h (heq ▸ hother)
    rw [Dict.get?_insert, if_neg hne]
  · have hconstants : ∀ f ∈ Expression.functions, f.1 ≠ "pi" ∧ f.1 ≠ "e" := by decide
    exact Expression.evaluate_insert_eq_ok x
      ((Expression.nameValue_isNone_iff vars f.1).mpr ⟨hnone, hconstants f hf⟩) h

end

/-- A call of a function, the name of which gets a value. -/
theorem Operation.substitute_local_call :
    let vars : Expression.Variables Float := Dict.empty.insert "x" 1
    let vars' : Expression.Variables Float := (Dict.empty.insert "pi" 3).insert "x" 1
    let op : Operation Float :=
      .block (.loop (.symbol "exp(x)")) [.record (.globalPhase (.number 1))]
    (Expression.names "exp(x)" = ["x"] ∧
      Expression.evaluate vars "exp(x)" = Expression.evaluate vars' "exp(x)" ∧
      Expression.evaluate (vars.insert "exp" 2) "exp(x)" = Expression.evaluate vars "exp(x)") ∧
    (vars.get? "exp" = none ∧ ∃ v, Expression.evaluate vars "exp(x)" = .ok v ∧
      Expression.evaluate (vars.insert "exp" 2) "exp(x)" = .ok v) ∧
    (op.names = ["x"] ∧ op.substitute vars = op.substitute vars') := by
  intro vars vars' op
  have hnames : Expression.names "exp(x)" = ["x"] := by
    have hlist : "exp(x)".toList = ['e', 'x', 'p', '(', 'x', ')'] := rfl
    rw [Expression.names, Expression.tokenize, hlist]
    simp +decide [Expression.scan, Expression.munch]
  have hop : op.names = ["x"] := by
    simp [op, Operation.names, Operation.scalars, Circuit.scalars, Block.scalars, Record.scalars,
      Scalar.names, hnames]
  have hagree : ∀ name ∈ ["x"], vars.get? name = vars'.get? name := by
    simp [vars, vars']
  have hnone : vars.get? "exp" = none := by simp [vars]
  have hspells : Expression.Spells .primary "exp(x)" (.call "exp" [.name "x"]) := by
    have hexp : Expression.IsName "exp" := Expression.isName_of_munch rfl rfl rfl
    have hx : Expression.Spells .primary "x" (.name "x") :=
      .name (Expression.isName_of_munch rfl rfl rfl)
    exact .call hexp (hx.mono (by decide))
  have hvalue : (Expression.Tree.call "exp" [.name "x"]).value (Expression.numbers vars) =
      some (Numeric.exp 1) := rfl
  have hv := (hspells.mono (Expression.Phrase.le_sum _)).evaluate.mpr hvalue
  obtain ⟨-, hsource, hother, hfunction, hall⟩ := Operation.substitute_local (R := Float)
  refine ⟨⟨hnames, hsource _ _ _ (hnames ▸ hagree), hother _ vars "exp" 2 ?_⟩, ⟨hnone, _, hv,
    hfunction _ vars 2 _ ("exp", 1) ?_ hnone hv⟩, hop, hall op _ _ (hop ▸ hagree)⟩
  · rw [hnames]
    decide
  · decide

end QuantumOps
