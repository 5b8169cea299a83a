import QuantumOps.Kak

/-! Equality of operations is symmetric and transitive wherever equality of numbers is. It is not
reflexive, for a number without a value equals nothing. -/
namespace QuantumOps

section
variable {α : Type} [BEq α] [PartialEquivBEq α]

theorem beq_list_symm : ∀ {xs ys : List α}, xs == ys → ys == xs
  | [], [], _ => rfl
  | [], _ :: _, h => by cases h
  | _ :: _, [], h => by cases h
  | x :: xs, y :: ys, h => by
    rw [List.cons_beq_cons, Bool.and_eq_true] at h ⊢
    exact ⟨BEq.symm h.1, beq_list_symm h.2⟩

theorem beq_list_trans : ∀ {xs ys zs : List α}, xs == ys → ys == zs → xs == zs
  | [], [], [], _, _ => rfl
  | [], [], _ :: _, _, h => by cases h
  | [], _ :: _, _, h, _ => by cases h
  | _ :: _, [], _, h, _ => by cases h
  | _ :: _, _ :: _, [], _, h => by cases h
  | x :: xs, y :: ys, z :: zs, h, h' => by
    rw [List.cons_beq_cons, Bool.and_eq_true] at h h' ⊢
    exact ⟨BEq.trans h.1 h'.1, beq_list_trans h.2 h'.2⟩

instance listPartialEquivBEq : PartialEquivBEq (List α) := ⟨beq_list_symm, beq_list_trans⟩

instance optionPartialEquivBEq : PartialEquivBEq (Option α) where
  symm {x y} h := by
    cases x <;> cases y <;> first
      | exact h
      | exact BEq.symm (α := α) h
  trans {x y z} h h' := by
    cases x <;> cases y <;> cases z <;> first
      | exact h
      | exact h'
      | cases h
      | cases h'
      | exact BEq.trans (α := α) h h'

instance : PartialEquivBEq (Triple α) where
  symm {x y} h := by
    simp only [BEq.beq, Bool.and_eq_true] at h ⊢
    exact ⟨⟨BEq.symm h.1.1, BEq.symm h.1.2⟩, BEq.symm h.2⟩
  trans {x y z} h h' := by
    simp only [BEq.beq, Bool.and_eq_true] at h h' ⊢
    exact ⟨⟨BEq.trans h.1.1 h'.1.1, BEq.trans h.1.2 h'.1.2⟩, BEq.trans h.2 h'.2⟩

end

section
variable {α : Type} [BEq α] [PartialEquivBEq α]

theorem SingleGate.beq_symm {g h : SingleGate α} (e : g.beq h) : h.beq g := by
  simp only [beq, Bool.and_eq_true] at e ⊢
  exact ⟨BEq.symm e.1, BEq.symm e.2⟩

theorem SingleGate.beq_trans {g h k : SingleGate α} (e : g.beq h) (e' : h.beq k) : g.beq k := by
  simp only [beq, Bool.and_eq_true] at e e' ⊢
  exact ⟨BEq.trans e.1 e'.1, BEq.trans e.2 e'.2⟩

theorem TwoGate.beq_symm {g h : TwoGate α} (e : g.beq h) : h.beq g := by
  simp only [beq, Bool.and_eq_true] at e ⊢
  exact ⟨BEq.symm e.1, BEq.symm e.2⟩

theorem TwoGate.beq_trans {g h k : TwoGate α} (e : g.beq h) (e' : h.beq k) : g.beq k := by
  simp only [beq, Bool.and_eq_true] at e e' ⊢
  exact ⟨BEq.trans e.1 e'.1, BEq.trans e.2 e'.2⟩

end

section
variable {R : Type} [Numeric R] [PartialEquivBEq R]

instance : PartialEquivBEq (Amplitude R) where
  symm {x y} h := by
    simp only [BEq.beq, Bool.and_eq_true] at h ⊢
    exact ⟨BEq.symm h.1, BEq.symm h.2⟩
  trans {x y z} h h' := by
    simp only [BEq.beq, Bool.and_eq_true] at h h' ⊢
    exact ⟨BEq.trans h.1 h'.1, BEq.trans h.2 h'.2⟩

instance : PartialEquivBEq (Scalar R) where
  symm {x y} h := by
    cases x <;> cases y <;> first
      | exact BEq.symm (α := R) h
      | exact BEq.symm (α := String) h
      | cases h
  trans {x y z} h h' := by
    cases x <;> cases y <;> first
      | cases h
      | cases z <;> first
        | exact BEq.trans (α := R) h h'
        | exact BEq.trans (α := String) h h'
        | cases h'

namespace Noise

/-- The rates of general noise. -/
def matrix? : Noise R → Option (Triple (Triple R))
  | general rates => some rates
  | _ => none

omit [PartialEquivBEq R] in
theorem beq_iff {c d : Noise R} : c.beq d ↔
    c.name == d.name ∧ c.rates.map Prod.snd == d.rates.map Prod.snd ∧ c.matrix? == d.matrix? := by
  cases c <;> cases d <;> simp [beq, name, rates, matrix?]

theorem beq_symm {c d : Noise R} (h : c.beq d) : d.beq c := by
  rw [beq_iff] at h ⊢
  exact ⟨BEq.symm h.1, BEq.symm h.2.1, BEq.symm h.2.2⟩

theorem beq_trans {c d e : Noise R} (h : c.beq d) (h' : d.beq e) : c.beq e := by
  rw [beq_iff] at h h' ⊢
  exact ⟨BEq.trans h.1 h'.1, BEq.trans h.2.1 h'.2.1, BEq.trans h.2.2 h'.2.2⟩

end Noise

namespace Record

theorem beq_symm {r s : Record R} (h : r.beq s) : s.beq r := by
  cases r <;> cases s <;> first
    | cases h
    | simp only [beq, Bool.and_eq_true] at h ⊢
      grind [BEq.symm, SingleGate.beq_symm, TwoGate.beq_symm, Noise.beq_symm]

theorem beq_trans {r s t : Record R} (h : r.beq s) (h' : s.beq t) : r.beq t := by
  cases r <;> cases s <;> first
    | cases h
    | cases t <;> first
      | cases h'
      | simp only [beq, Bool.and_eq_true] at h h' ⊢
        grind [BEq.trans, SingleGate.beq_trans, TwoGate.beq_trans, Noise.beq_trans]

instance : PartialEquivBEq (Record R) := ⟨beq_symm, beq_trans⟩

end Record

namespace Block

theorem beq_symm {b c : Block R} (h : b.beq c) : c.beq b := by
  cases b <;> cases c <;> first
    | cases h
    | simp only [beq, Bool.and_eq_true] at h ⊢
      grind [BEq.symm]

theorem beq_trans {b c d : Block R} (h : b.beq c) (h' : c.beq d) : b.beq d := by
  cases b <;> cases c <;> first
    | cases h
    | cases d <;> first
      | cases h'
      | simp only [beq, Bool.and_eq_true] at h h' ⊢
        grind [BEq.trans]

instance : PartialEquivBEq (Block R) := ⟨beq_symm, beq_trans⟩

end Block

end

section
variable {R : Type} [Numeric R]

mutual

theorem Operation.beq_symm [PartialEquivBEq R] : ∀ {a b : Operation R}, a.beq b → b.beq a
  | .record _, .record _, h => BEq.symm (α := Record R) h
  | .block .., .block .., h => by
    rw [Operation.beq, Bool.and_eq_true] at h ⊢
    exact ⟨BEq.symm h.1, Circuit.beq_symm h.2⟩
  | .annotated .., .annotated .., h => by
    rw [Operation.beq, Bool.and_eq_true] at h ⊢
    exact ⟨Operation.beq_symm h.1, BEq.symm h.2⟩

theorem Circuit.beq_symm [PartialEquivBEq R] :
    ∀ {c d : List (Operation R)}, Circuit.beq c d → Circuit.beq d c
  | [], [], _ => rfl
  | _ :: _, _ :: _, h => by
    rw [Circuit.beq, Bool.and_eq_true] at h ⊢
    exact ⟨Operation.beq_symm h.1, Circuit.beq_symm h.2⟩

end

mutual

theorem Operation.beq_trans [PartialEquivBEq R] :
    ∀ {a b c : Operation R}, a.beq b → b.beq c → a.beq c
  | .record _, .record _, .record _, h, h' => BEq.trans (α := Record R) h h'
  | .block .., .block .., .block .., h, h' => by
    rw [Operation.beq, Bool.and_eq_true] at h h' ⊢
    exact ⟨BEq.trans h.1 h'.1, Circuit.beq_trans h.2 h'.2⟩
  | .annotated .., .annotated .., .annotated .., h, h' => by
    rw [Operation.beq, Bool.and_eq_true] at h h' ⊢
    exact ⟨Operation.beq_trans h.1 h'.1, BEq.trans h.2 h'.2⟩

theorem Circuit.beq_trans [PartialEquivBEq R] :
    ∀ {c d e : List (Operation R)}, Circuit.beq c d → Circuit.beq d e → Circuit.beq c e
  | [], [], [], _, _ => rfl
  | _ :: _, _ :: _, _ :: _, h, h' => by
    rw [Circuit.beq, Bool.and_eq_true] at h h' ⊢
    exact ⟨Operation.beq_trans h.1 h'.1, Circuit.beq_trans h.2 h'.2⟩

end

theorem Kak.beq_iff {k l : Kak R} : k == l ↔ k.globalPhase == l.globalPhase ∧
    k.strengths == l.strengths ∧ k.before == l.before ∧ k.after == l.after := by
  change (k.globalPhase == l.globalPhase && k.strengths == l.strengths && k.before == l.before &&
    k.after == l.after) = true ↔ _
  simp only [Bool.and_eq_true, and_assoc]

instance [PartialEquivBEq R] : PartialEquivBEq (Operation R) :=
  ⟨Operation.beq_symm, Operation.beq_trans⟩

instance [PartialEquivBEq R] : PartialEquivBEq (Kak R) where
  symm h := by
    rw [Kak.beq_iff] at h ⊢
    obtain ⟨hphase, hstrengths, hbefore, hafter⟩ := h
    exact ⟨BEq.symm hphase, BEq.symm hstrengths, BEq.symm hbefore, BEq.symm hafter⟩
  trans h h' := by
    rw [Kak.beq_iff] at h h' ⊢
    obtain ⟨hphase, hstrengths, hbefore, hafter⟩ := h
    obtain ⟨hphase', hstrengths', hbefore', hafter'⟩ := h'
    exact ⟨BEq.trans hphase hphase', BEq.trans hstrengths hstrengths',
      BEq.trans hbefore hbefore', BEq.trans hafter hafter'⟩

end
end QuantumOps
