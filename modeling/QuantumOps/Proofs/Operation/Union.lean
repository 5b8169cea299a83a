import QuantumOps.Proofs.Operation.Involvement

/-! What a circuit involves is what its operations involve together: in any order, split anywhere,
and with any part of the circuit put into a loop or under a condition. -/
namespace QuantumOps

variable {R : Type}

namespace Circuit

/-- What is involved so far, joined with all operations and not only up to the first that involves
the whole register. -/
def joined (sofar : Involved) (c : Circuit R) : Involved :=
  c.foldl (fun sofar op => sofar.join op.involved) sofar

theorem joined_cons (op : Operation R) (rest : Circuit R) (sofar : Involved) :
    joined sofar (op :: rest) = joined (sofar.join op.involved) rest := rfl

theorem joined_all (c : Circuit R) : joined .all c = .all := by
  induction c with
  | nil => rfl
  | cons op rest ih => rw [joined_cons, Involved.all_join, ih]

/-- Joining may stop at the whole register, for the rest of the circuit would not change it. -/
theorem involvedFrom_eq_joined (c : Circuit R) (sofar : Involved) :
    involvedFrom sofar c = joined sofar c := by
  induction c generalizing sofar with
  | nil => rw [involvedFrom, joined, List.foldl_nil]
  | cons op rest ih =>
    rw [involvedFrom, joined_cons]
    cases sofar.join op.involved with
    | all => exact (joined_all rest).symm
    | only s => exact ih (.only s)

theorem joined_eq_join (c : Circuit R) (sofar : Involved) :
    joined sofar c = sofar.join (joined .none c) := by
  induction c generalizing sofar with
  | nil => exact Involved.join_none.symm
  | cons op rest ih =>
    rw [joined_cons, ih, joined_cons, ih (Involved.none.join op.involved), Involved.none_join,
      Involved.join_assoc]

theorem involved_append (c d : Circuit R) : involved (c ++ d) = (involved c).join (involved d) := by
  simp only [involved, involvedFrom_eq_joined]
  rw [joined, List.foldl_append, ← joined, ← joined, joined_eq_join]

theorem involved_perm {c d : Circuit R} (h : c.Perm d) : involved c = involved d := by
  simp only [involved, involvedFrom_eq_joined, joined]
  refine h.foldl_eq' (fun op _ op' _ sofar => ?_) Involved.none
  rw [Involved.join_assoc, Involved.join_comm (a := op.involved), Involved.join_assoc]

/-- A block that has no qubits of its own involves what its circuit does. -/
theorem involved_wrapped {b : Block R} (h : b.involved = .none) (body : Circuit R) :
    involved [.block b body] = involved body := by
  have hblock : (Operation.block b body).involved = involved body := by
    rw [Operation.involved, h, Involved.none_join, involved]
  rw [involved, involvedFrom_eq_joined, joined_cons, Involved.none_join, hblock]
  rfl

end Circuit

section

open Involved (Layout)

/-- Kept as a kind beside a set, what is involved has qubits in the set just when the kind says so,
and joining has the laws of a union in which nothing is neutral and the whole register absorbs all
else. A circuit therefore involves the join of its parts, which neither the order of its operations
changes nor a loop or a condition around some of them, and all of them count although joining stops
at the first that involves the whole register. -/
theorem involved_union :
    (∀ v : Layout, v.Obtainable → (v.kind = .set ↔ v.qubits ≠ ∅)) ∧
    (∀ u v w : Layout, u.Obtainable → v.Obtainable → w.Obtainable →
      (u.join v).join w = u.join (v.join w) ∧ u.join v = v.join u ∧ u.join u = u ∧
      (Layout.none.join u = u ∧ u.join .none = u) ∧
      (Layout.all.join u = .all ∧ u.join .all = .all)) ∧
    (∀ a : Involved, a.layout.Obtainable ∧ (a.layout.kind = .set ↔ a.isSet = true) ∧
      a.layout.qubits = a.qubits) ∧
    (∀ a b : Involved, (a.join b).layout = a.layout.join b.layout ∧
      (a.layout = b.layout ↔ a = b)) ∧
    (∀ c d : Circuit R,
      Circuit.involved (c ++ d) = (Circuit.involved c).join (Circuit.involved d)) ∧
    (∀ c d : Circuit R, c.Perm d → Circuit.involved c = Circuit.involved d) ∧
    (∀ (c run d : Circuit R) (repetitions : Scalar R),
      Circuit.involved (c ++ [.block (.loop repetitions) run] ++ d) =
        Circuit.involved (c ++ run ++ d)) ∧
    (∀ (c run d : Circuit R) (register : String) (index : Nat),
      Circuit.involved (c ++ [.block (.conditional register index) run] ++ d) =
        Circuit.involved (c ++ run ++ d)) ∧
    ∀ c : Circuit R,
      Circuit.involved c = c.foldl (fun sofar op => sofar.join op.involved) .none := by
  refine ⟨fun v hv => ?_, fun u v w hu hv hw => ?_, fun a => ?_, fun a b => ?_,
    Circuit.involved_append, fun c d => Circuit.involved_perm, fun c run d repetitions => ?_,
    fun c run d register index => ?_, fun c => Circuit.involvedFrom_eq_joined c .none⟩
  · obtain ⟨a, rfl⟩ := Layout.obtainable_iff.mp hv
    cases a with
    | all => exact iff_of_false nofun (not_not_intro rfl)
    | only s =>
      rw [Involved.layout, Layout.set_kind, Layout.set_qubits]
  · obtain ⟨a, rfl⟩ := Layout.obtainable_iff.mp hu
    obtain ⟨b, rfl⟩ := Layout.obtainable_iff.mp hv
    obtain ⟨c, rfl⟩ := Layout.obtainable_iff.mp hw
    have hnone : Layout.none = Involved.none.layout := rfl
    have hall : Layout.all = Involved.all.layout := rfl
    simp only [hnone, hall, ← Involved.layout_join, Involved.layout_injective]
    exact ⟨Involved.join_assoc, Involved.join_comm, Involved.join_self,
      ⟨Involved.none_join, Involved.join_none⟩, Involved.all_join, Involved.join_all⟩
  · exact ⟨Layout.obtainable_iff.mpr ⟨a, rfl⟩, Involved.layout_kind_eq_set,
      Involved.layout_qubits⟩
  · exact ⟨Involved.layout_join, Involved.layout_injective⟩
  · simp only [Circuit.involved_append, Circuit.involved_wrapped (b := .loop repetitions) rfl]
  · simp only [Circuit.involved_append,
      Circuit.involved_wrapped (b := .conditional register index) rfl]

/-- A pair that cannot be made: its kind says nothing, and yet there is a qubit, so that joining
with itself changes it. Two operations in either order. -/
theorem involved_union_two :
    let odd : Layout := ⟨.none, .ofList [0]⟩
    let set : Layout := .set (.ofList [1, 2])
    let gate : Operation Float := .record (.twoQubit .cnot 1 2)
    let reset : Operation Float := .record (.activeReset 0)
    odd.join odd ≠ odd ∧ ¬odd.Obtainable ∧ (set.Obtainable ∧ set.join set = set) ∧
    ([gate, reset].Perm [reset, gate] ∧
      Circuit.involved [gate, reset] = Circuit.involved [reset, gate]) := by
  intro odd set gate reset
  obtain ⟨hkind, hjoin, -, -, -, hperm, -⟩ := involved_union (R := Float)
  have hset : set.Obtainable := .set _
  have hodd : odd.join odd ≠ odd := by decide
  exact ⟨hodd, fun h => hodd (hjoin odd odd odd h h h).2.2.1,
    ⟨hset, (hjoin set set set hset hset hset).2.2.1⟩, List.Perm.swap _ _ _,
    hperm _ _ (List.Perm.swap _ _ _)⟩

end

end QuantumOps
