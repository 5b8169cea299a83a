import Mathlib.Data.List.Forall2

/-! Computations that can fail, and when what they give equals a value that is computed another
way. -/
namespace QuantumOps

section
variable {α β ε : Type}

theorem bind_eq_ok {x : Except ε α} {f : α → Except ε β} {b : β} :
    x >>= f = .ok b ↔ ∃ a, x = .ok a ∧ f a = .ok b := by
  cases x with
  | ok a =>
    constructor
    · intro h
      exact ⟨a, rfl, h⟩
    · rintro ⟨_, ⟨⟩, h⟩
      exact h
  | error e =>
    constructor
    · rintro ⟨⟩
    · rintro ⟨_, ⟨⟩, -⟩

theorem pure_eq_ok {a b : α} : (pure a : Except ε α) = .ok b ↔ b = a := by
  constructor
  · rintro ⟨⟩
    rfl
  · rintro rfl
    rfl

theorem bind_eq_error {x : Except ε α} {f : α → Except ε β} {e : ε} :
    x >>= f = .error e ↔ x = .error e ∨ ∃ a, x = .ok a ∧ f a = .error e := by
  cases x with
  | ok a =>
    constructor
    · intro h
      exact Or.inr ⟨a, rfl, h⟩
    · rintro (⟨⟨⟩⟩ | ⟨_, ⟨⟩, h⟩)
      exact h
  | error e' =>
    constructor
    · rintro ⟨⟩
      exact Or.inl rfl
    · rintro (⟨⟨⟩⟩ | ⟨_, ⟨⟩, -⟩)
      rfl

/-- What is made from a value that a computation gives under a condition is given under it, too. -/
theorem bind_pure_eq_ok {x : Except ε α} {condition : Prop} {a : α} {f : α → β} {b : β}
    (h : ∀ {a'}, x = .ok a' ↔ condition ∧ a' = a) :
    (do return f (← x)) = Except.ok b ↔ condition ∧ b = f a := by
  rw [bind_eq_ok]
  constructor
  · rintro ⟨a', ha', hb⟩
    obtain ⟨hcondition, rfl⟩ := h.mp ha'
    exact ⟨hcondition, pure_eq_ok.mp hb⟩
  · rintro ⟨hcondition, rfl⟩
    exact ⟨a, h.mpr ⟨hcondition, rfl⟩, rfl⟩

theorem bind_bind_pure_eq_ok {γ : Type} {x : Except ε α} {y : Except ε β} {condition : Prop}
    {condition' : Prop} {a : α} {b : β} {f : α → β → γ} {c : γ}
    (hx : ∀ {a'}, x = .ok a' ↔ condition ∧ a' = a)
    (hy : ∀ {b'}, y = .ok b' ↔ condition' ∧ b' = b) :
    (do return f (← x) (← y)) = Except.ok c ↔ (condition ∧ condition') ∧ c = f a b := by
  rw [bind_eq_ok]
  constructor
  · rintro ⟨a', ha', h⟩
    obtain ⟨hcondition, rfl⟩ := hx.mp ha'
    obtain ⟨hcondition', hc⟩ := (bind_pure_eq_ok hy).mp h
    exact ⟨⟨hcondition, hcondition'⟩, hc⟩
  · rintro ⟨⟨hcondition, hcondition'⟩, hc⟩
    exact ⟨a, hx.mpr ⟨hcondition, rfl⟩, (bind_pure_eq_ok hy).mpr ⟨hcondition', hc⟩⟩

theorem bind_pure_eq_error {x : Except ε α} {f : α → β} {e : ε} :
    (do return f (← x)) = Except.error e ↔ x = .error e := by
  rw [bind_eq_error]
  constructor
  · rintro (h | ⟨a, -, ⟨⟩⟩)
    exact h
  · exact Or.inl

theorem exists_mapM_eq_ok_iff {f : α → Except ε β} :
    ∀ {xs : List α}, (∃ ys, xs.mapM f = .ok ys) ↔ ∀ x ∈ xs, ∃ y, f x = .ok y
  | [] => ⟨fun _ => List.forall_mem_nil _, fun _ => ⟨[], rfl⟩⟩
  | x :: xs => by
    rw [List.forall_mem_cons, ← exists_mapM_eq_ok_iff, List.mapM_cons]
    constructor
    · rintro ⟨ys, h⟩
      obtain ⟨y, hx, h⟩ := bind_eq_ok.mp h
      obtain ⟨ys', hxs, -⟩ := bind_eq_ok.mp h
      exact ⟨⟨y, hx⟩, ys', hxs⟩
    · rintro ⟨⟨y, hx⟩, ys, hxs⟩
      rw [hx, hxs]
      exact ⟨y :: ys, rfl⟩

/-- A computation on a list fails at the first element on which it fails. -/
theorem mapM_eq_error_iff {f : α → Except ε β} {e : ε} {xs : List α} :
    xs.mapM f = .error e ↔ ∃ before x after, xs = before ++ x :: after ∧
      (∀ y ∈ before, ∃ z, f y = .ok z) ∧ f x = .error e := by
  constructor
  · intro h
    induction xs with
    | nil =>
      rw [List.mapM_nil] at h
      cases h
    | cons x xs ih =>
      rw [List.mapM_cons] at h
      rcases bind_eq_error.mp h with hx | ⟨y, hy, h⟩
      · exact ⟨[], x, xs, rfl, List.forall_mem_nil _, hx⟩
      · rcases bind_eq_error.mp h with hxs | ⟨ys, -, h⟩
        · obtain ⟨before, x', after, rfl, hbefore, hx'⟩ := ih hxs
          exact ⟨x :: before, x', after, rfl, List.forall_mem_cons.mpr ⟨⟨y, hy⟩, hbefore⟩, hx'⟩
        · cases h
  · rintro ⟨before, x, after, rfl, hbefore, hx⟩
    obtain ⟨ys, hys⟩ := exists_mapM_eq_ok_iff.mpr hbefore
    rw [List.mapM_append, hys, List.mapM_cons, hx]
    rfl

theorem exists_of_mapM_eq_error {f : α → Except ε β} {e : ε} {xs : List α}
    (h : xs.mapM f = .error e) : ∃ x ∈ xs, f x = .error e := by
  obtain ⟨before, x, after, rfl, -, hx⟩ := mapM_eq_error_iff.mp h
  exact ⟨x, List.mem_append_right before List.mem_cons_self, hx⟩

theorem exists_of_mem_mapM {f : α → Except ε β} {y : β} :
    ∀ {xs : List α} {ys : List β}, xs.mapM f = .ok ys → y ∈ ys → ∃ x ∈ xs, f x = .ok y
  | [], ys, h, hy => by
    rw [List.mapM_nil] at h
    cases h
    cases hy
  | x :: xs, ys, h, hy => by
    rw [List.mapM_cons] at h
    obtain ⟨z, hz, h⟩ := bind_eq_ok.mp h
    obtain ⟨zs, hzs, h⟩ := bind_eq_ok.mp h
    cases h
    rcases List.mem_cons.mp hy with rfl | hy
    · exact ⟨x, List.mem_cons_self, hz⟩
    · obtain ⟨x', hx', hy⟩ := exists_of_mem_mapM hzs hy
      exact ⟨x', List.mem_cons_of_mem x hx', hy⟩

/-- A fold fails at an element, after it has succeeded on those before. -/
theorem exists_of_foldlM_eq_error {f : β → α → Except ε β} {e : ε} :
    ∀ {xs : List α} {b : β}, xs.foldlM f b = .error e → ∃ before x after b',
      xs = before ++ x :: after ∧ before.foldlM f b = .ok b' ∧ f b' x = .error e
  | [], b, h => by
    rw [List.foldlM_nil] at h
    cases h
  | x :: xs, b, h => by
    rw [List.foldlM_cons] at h
    rcases bind_eq_error.mp h with hx | ⟨b₁, hb₁, h⟩
    · exact ⟨[], x, xs, b, rfl, rfl, hx⟩
    · obtain ⟨before, x', after, b', rfl, hb', hx'⟩ := exists_of_foldlM_eq_error h
      refine ⟨x :: before, x', after, b', rfl, ?_, hx'⟩
      rw [List.foldlM_cons, hb₁]
      exact hb'

/-- What a computation gives where it succeeds, and any value elsewhere. -/
theorem exists_values [Inhabited β] (f : α → Except ε β) :
    ∃ k : α → β, ∀ a b, f a = .ok b → k a = b := by
  refine ⟨fun a => match f a with | .ok b => b | .error _ => default, fun a b h => ?_⟩
  simp only [h]

theorem mapM_eq_ok {f : α → Except ε β} {k : α → β} :
    ∀ {xs : List α}, (∀ x ∈ xs, f x = .ok (k x)) → xs.mapM f = .ok (xs.map k)
  | [], _ => rfl
  | x :: xs, h => by
    have ih := mapM_eq_ok fun y hy => h y (List.mem_cons_of_mem x hy)
    rw [List.mapM_cons, h x List.mem_cons_self, ih]
    rfl

/-- A change of the values that a thing is made of succeeds just when each has a new one, and then
puts in the new ones. -/
theorem eq_ok_iff_exists_values {γ : Type} [Inhabited β] {f : α → Except ε β} {xs : List α}
    {run : Except ε γ} {put : (α → β) → γ} {c : γ}
    (hok : ∀ k, (∀ x ∈ xs, f x = .ok (k x)) → run = .ok (put k))
    (hex : run = .ok c → ∀ x ∈ xs, ∃ y, f x = .ok y) :
    run = .ok c ↔ ∃ k, (∀ x ∈ xs, f x = .ok (k x)) ∧ c = put k := by
  constructor
  · intro h
    obtain ⟨k, hk⟩ := exists_values f
    have hf : ∀ x ∈ xs, f x = .ok (k x) := by
      intro x hx
      obtain ⟨y, hy⟩ := hex h x hx
      rw [hy, hk x y hy]
    rw [hok k hf] at h
    exact ⟨k, hf, (Except.ok.inj h).symm⟩
  · rintro ⟨k, hf, rfl⟩
    exact hok k hf

theorem mapM_congr {f g : α → Except ε β} :
    ∀ {xs : List α}, (∀ x ∈ xs, f x = g x) → xs.mapM f = xs.mapM g
  | [], _ => rfl
  | x :: xs, h => by
    obtain ⟨hx, hxs⟩ := List.forall_mem_cons.mp h
    rw [List.mapM_cons, List.mapM_cons, hx, mapM_congr hxs]

theorem foldlM_congr {f g : β → α → Except ε β} :
    ∀ {xs : List α} {b : β}, (∀ x ∈ xs, ∀ b, f b x = g b x) → xs.foldlM f b = xs.foldlM g b
  | [], _, _ => rfl
  | x :: xs, b, h => by
    obtain ⟨hx, hxs⟩ := List.forall_mem_cons.mp h
    rw [List.foldlM_cons, List.foldlM_cons, hx b]
    exact bind_congr fun b' => foldlM_congr hxs

/-- A map that each step of a fold respects is respected by the fold. -/
theorem foldlM_map_eq {α' β' : Type} {f : β → α → Except ε β} {g : β' → α' → Except ε β'}
    {k : α → α'} {l : β → β'} (h : ∀ b a, g (l b) (k a) = l <$> f b a) :
    ∀ {xs : List α} {b : β}, (xs.map k).foldlM g (l b) = l <$> xs.foldlM f b
  | [], _ => rfl
  | x :: xs, b => by
    rw [List.map_cons, List.foldlM_cons, List.foldlM_cons, h, map_bind, bind_map_left]
    exact bind_congr fun b' => foldlM_map_eq h

/-- The computation gives what equals `y`. -/
def Agrees [BEq α] (x : Except ε α) (y : α) : Prop := ∃ z, x = .ok z ∧ z == y

variable [BEq β] [Inhabited β] {f : α → Except ε β} {xs : List α} {ys : List β}

/-- Computations on a list that agree with another list one by one are computations with values that
make the lists equal. -/
theorem forall₂_agrees_iff : List.Forall₂ (fun x y => Agrees (f x) y) xs ys ↔
    ∃ k : α → β, (∀ x ∈ xs, f x = .ok (k x)) ∧ xs.map k == ys := by
  constructor
  · intro h
    obtain ⟨k, hk⟩ := exists_values f
    refine ⟨k, ?_⟩
    induction h with
    | nil => exact ⟨nofun, rfl⟩
    | cons hxy _ ih =>
      obtain ⟨z, hz, hzy⟩ := hxy
      obtain ⟨hf, hbeq⟩ := ih
      obtain rfl := hk _ z hz
      refine ⟨List.forall_mem_cons.mpr ⟨hz, hf⟩, ?_⟩
      rw [List.map_cons, List.cons_beq_cons, hzy, hbeq]
      rfl
  · rintro ⟨k, hf, hbeq⟩
    induction xs generalizing ys with
    | nil =>
      cases ys with
      | nil => exact .nil
      | cons y ys => cases hbeq
    | cons x xs ih =>
      cases ys with
      | nil => cases hbeq
      | cons y ys =>
        rw [List.map_cons, List.cons_beq_cons, Bool.and_eq_true] at hbeq
        obtain ⟨hx, hxs⟩ := List.forall_mem_cons.mp hf
        exact .cons ⟨k x, hx, hbeq.1⟩ (ih hxs hbeq.2)

theorem Agrees.mapM (h : List.Forall₂ (fun x y => Agrees (f x) y) xs ys) :
    Agrees (xs.mapM f) ys := by
  obtain ⟨k, hf, hbeq⟩ := forall₂_agrees_iff.mp h
  exact ⟨xs.map k, mapM_eq_ok hf, hbeq⟩

end

/-- A value computed in two ways. The careful way always gives what equals it, and the other does
just when it gives what the careful one does, for which there is a sufficient condition. -/
structure AgreesWithCare {α ε : Type} [BEq α] (bare careful : Except ε α) (value : α)
    (condition : Prop) : Prop where
  always : Agrees careful value
  bare_iff : Agrees bare value ↔ ∃ z, careful = .ok z ∧ Agrees bare z
  of_condition : condition → Agrees bare value

theorem AgreesWithCare.intro {α ε : Type} [BEq α] [PartialEquivBEq α] {bare careful : Except ε α}
    {value : α} {condition : Prop} (h : Agrees careful value)
    (hc : condition → Agrees bare value) : AgreesWithCare bare careful value condition := by
  refine ⟨h, ?_, hc⟩
  obtain ⟨w, hw, hwv⟩ := h
  constructor
  · rintro ⟨z, hz, hzv⟩
    exact ⟨w, hw, z, hz, BEq.trans hzv (BEq.symm hwv)⟩
  · rintro ⟨w', hw', z, hz, hzw⟩
    rw [hw] at hw'
    cases hw'
    exact ⟨z, hz, BEq.trans hzw hwv⟩

end QuantumOps
