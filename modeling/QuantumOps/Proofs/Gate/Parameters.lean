import QuantumOps.Gate.Single
import QuantumOps.Gate.Two
import QuantumOps.Proofs.Agreement

/-! Changing the parameters of a gate. A change that can fail succeeds when it does on every
parameter, and then is a change that cannot. -/
namespace QuantumOps

variable {α β ε : Type}

namespace SingleGate

@[simp] theorem name_map (g : SingleGate α) (k : α → β) : (g.map k).name = g.name := by
  cases g <;> rfl

@[simp] theorem name_mapAngle (g : SingleGate α) (f : α → α) : (g.mapAngle f).name = g.name := by
  cases g <;> rfl

theorem map_id (g : SingleGate α) : g.map id = g := by
  cases g <;> rfl

theorem map_map {γ : Type} (g : SingleGate α) (k : α → β) (k' : β → γ) :
    (g.map k).map k' = g.map (k' ∘ k) := by
  cases g <;> rfl

theorem parameters_map (g : SingleGate α) (k : α → β) :
    (g.map k).parameters.map Prod.snd = (g.parameters.map Prod.snd).map k := by
  cases g <;> rfl

theorem angle?_map (g : SingleGate α) (k : α → β) : (g.map k).angle? = g.angle?.map k := by
  cases g <;> rfl

theorem traverse_map {γ : Type} (g : SingleGate α) (k : α → β) (f : β → Except ε γ) :
    (g.map k).traverse f = g.traverse fun a => f (k a) := by
  cases g <;> rfl

theorem traverse_eq_ok {f : α → Except ε β} {k : α → β} {g : SingleGate α}
    (h : ∀ a ∈ g.parameters.map Prod.snd, f a = .ok (k a)) : g.traverse f = .ok (g.map k) := by
  cases g <;> simp_all [traverse, parameters, map, bind, Except.bind, pure, Except.pure]

theorem exists_of_traverse {f : α → Except ε β} {g : SingleGate α} {g' : SingleGate β}
    (h : g.traverse f = .ok g') : ∀ a ∈ g.parameters.map Prod.snd, ∃ b, f a = .ok b := by
  cases g <;> simp only [traverse, bind_eq_ok] at h <;> simp [parameters] <;> grind

/-- A change that succeeds gives every parameter a value. -/
theorem traverse_eq_ok_iff [Inhabited β] {f : α → Except ε β} {g : SingleGate α}
    {g' : SingleGate β} : g.traverse f = .ok g' ↔
      ∃ k, (∀ a ∈ g.parameters.map Prod.snd, f a = .ok (k a)) ∧ g' = g.map k :=
  eq_ok_iff_exists_values (fun _ => traverse_eq_ok) exists_of_traverse

/-- The angle of a rotation is its first parameter. -/
theorem exists_parameters {g : SingleGate α} {t : α} (h : g.angle? = some t) :
    ∃ rest, g.parameters.map Prod.snd = t :: rest ∧
      ∀ f : α → α, (g.mapAngle f).parameters.map Prod.snd = f t :: rest := by
  cases g <;> simp_all [angle?, mapAngle, parameters]

theorem mem_parameters_of_angle? {g : SingleGate α} {t : α} (h : g.angle? = some t) :
    t ∈ g.parameters.map Prod.snd := by
  obtain ⟨rest, hrest, -⟩ := exists_parameters h
  rw [hrest]
  exact List.mem_cons_self

end SingleGate

namespace TwoGate

@[simp] theorem name_map (g : TwoGate α) (k : α → β) : (g.map k).name = g.name := by
  cases g <;> rfl

@[simp] theorem name_mapAngle (g : TwoGate α) (f : α → α) : (g.mapAngle f).name = g.name := by
  cases g <;> rfl

theorem map_id (g : TwoGate α) : g.map id = g := by
  cases g <;> rfl

theorem map_map {γ : Type} (g : TwoGate α) (k : α → β) (k' : β → γ) :
    (g.map k).map k' = g.map (k' ∘ k) := by
  cases g <;> rfl

theorem parameters_map (g : TwoGate α) (k : α → β) :
    (g.map k).parameters.map Prod.snd = (g.parameters.map Prod.snd).map k := by
  cases g <;> rfl

theorem angle?_map (g : TwoGate α) (k : α → β) : (g.map k).angle? = g.angle?.map k := by
  cases g <;> rfl

theorem traverse_map {γ : Type} (g : TwoGate α) (k : α → β) (f : β → Except ε γ) :
    (g.map k).traverse f = g.traverse fun a => f (k a) := by
  cases g <;> rfl

theorem traverse_eq_ok {f : α → Except ε β} {k : α → β} {g : TwoGate α}
    (h : ∀ a ∈ g.parameters.map Prod.snd, f a = .ok (k a)) : g.traverse f = .ok (g.map k) := by
  cases g <;> simp_all [traverse, parameters, map, bind, Except.bind, pure, Except.pure]

theorem exists_of_traverse {f : α → Except ε β} {g : TwoGate α} {g' : TwoGate β}
    (h : g.traverse f = .ok g') : ∀ a ∈ g.parameters.map Prod.snd, ∃ b, f a = .ok b := by
  cases g <;> simp only [traverse, bind_eq_ok] at h <;> simp [parameters] <;> grind

theorem traverse_eq_ok_iff [Inhabited β] {f : α → Except ε β} {g : TwoGate α}
    {g' : TwoGate β} : g.traverse f = .ok g' ↔
      ∃ k, (∀ a ∈ g.parameters.map Prod.snd, f a = .ok (k a)) ∧ g' = g.map k :=
  eq_ok_iff_exists_values (fun _ => traverse_eq_ok) exists_of_traverse

theorem exists_parameters {g : TwoGate α} {t : α} (h : g.angle? = some t) :
    ∃ rest, g.parameters.map Prod.snd = t :: rest ∧
      ∀ f : α → α, (g.mapAngle f).parameters.map Prod.snd = f t :: rest := by
  cases g <;> simp_all [angle?, mapAngle, parameters]

end TwoGate
end QuantumOps
