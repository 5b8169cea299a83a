import QuantumOps.Kak
import QuantumOps.Operation.Product
import QuantumOps.Proofs.Operation.Remapping
import QuantumOps.Proofs.Operation.Values

/-! Everything that can be made with the library is well formed, at any depth. Only records are
checked when they are made; renaming, substitution, powers and products change records without a
check, and keep what the check has ensured. -/
namespace QuantumOps

variable {R : Type}

section
variable {m : Mapping}

theorem Circuit.remap_eq_mapM : ∀ c : Circuit R, Circuit.remap m c = c.mapM (Operation.remap m)
  | [] => rfl
  | op :: rest => by rw [Circuit.remap, List.mapM_cons, Circuit.remap_eq_mapM rest]

theorem Circuit.traverse_eq_mapM {ε : Type} {f : Scalar R → Except ε (Scalar R)} :
    ∀ c : Circuit R, Circuit.traverse f c = c.mapM (Operation.traverse f)
  | [] => rfl
  | op :: rest => by rw [Circuit.traverse, List.mapM_cons, Circuit.traverse_eq_mapM rest]

theorem Circuit.mem_nested {n : Operation R} :
    ∀ {c : Circuit R}, n ∈ Circuit.nested c ↔ ∃ op ∈ c, n ∈ op.nested
  | [] => by simp [Circuit.nested]
  | op :: rest => by
    rw [Circuit.nested, List.mem_append, Circuit.mem_nested, List.exists_mem_cons_iff]

end

variable [Numeric R]

/-- What the fields of an operation itself satisfy, whatever is inside it. -/
structure Operation.WellFormed (op : Operation R) : Prop where
  /-- A gate on two qubits has two of them. -/
  different : ∀ g c t, op = .record (.twoQubit g c t) → c ≠ t
  /-- All rates of general noise are finite. -/
  finite : ∀ rates q time, op = .record (.noise (.general rates) q time) →
    ∀ row ∈ rates.toList, ∀ x ∈ row.toList, Numeric.isFinite x = true
  /-- A density matrix has as many columns as rows. -/
  square : ∀ rows, op = .record (.setDensityMatrix rows) → ∀ row ∈ rows, row.length = rows.length

mutual

/-- The operations that are made from checked records by the functions of the library. -/
inductive Operation.Reachable : Operation R → Prop
  | record {r r' : Record R} (h : r.check = .ok r') : Operation.Reachable (.record r')
  | remap {op op' : Operation R} {m : Mapping} (h : op.Reachable) (hop : op.remap m = .ok op') :
    op'.Reachable
  | substitute {op op' : Operation R} {vars : Expression.Variables R} (h : op.Reachable)
    (hop : op.substitute vars = .ok op') : op'.Reachable
  | rotationPower {op op' : Operation R} {s : Scalar R} (h : op.Reachable)
    (hop : op.rotationPower s = .ok op') : op'.Reachable
  | noisePower {op op' : Operation R} {s : Scalar R} (h : op.Reachable)
    (hop : op.noisePower s = .ok op') : op'.Reachable
  | mul {a b product : Operation R} (ha : a.Reachable) (hb : b.Reachable)
    (h : a.mul b = .ok product) : product.Reachable
  | annotate {op : Operation R} {note : String} (h : op.Reachable) :
    (Operation.annotated op note).Reachable
  | unwrap {op op' : Operation R} (h : op.Reachable) (hop : op.unwrap = .ok op') : op'.Reachable
  | block {b : Block R} {body : Circuit R} (h : Circuit.Reachable body) :
    (Operation.block b body).Reachable
  | lookup {c : Circuit R} {index : Nat} {op : Operation R} (h : Circuit.Reachable c)
    (hop : Circuit.lookup c index = .ok op) : op.Reachable

/-- The circuits that are made from such operations. -/
inductive Circuit.Reachable : Circuit R → Prop
  | empty : Circuit.Reachable []
  | add {c : Circuit R} {op : Operation R} (h : Circuit.Reachable c) (hop : op.Reachable) :
    Circuit.Reachable (c ++ [op])
  | body {b : Block R} {c : Circuit R} (h : (Operation.block b c).Reachable) : Circuit.Reachable c
  | decompose {op : Operation R} {g : TwoGate (Scalar R)} {control target : Nat} {c : Circuit R}
    (h : op.Reachable) (hop : op.toTwoQubit = .ok (g, control, target))
    (hc : c ∈ (g.kak control target).before ∨ c ∈ (g.kak control target).after) :
    Circuit.Reachable c
  | remap {c c' : Circuit R} {m : Mapping} (h : Circuit.Reachable c)
    (hc : Circuit.remap m c = .ok c') : Circuit.Reachable c'
  | substitute {c c' : Circuit R} {vars : Expression.Variables R} (h : Circuit.Reachable c)
    (hc : Circuit.substitute vars c = .ok c') : Circuit.Reachable c'
  /-- Puts what a function makes of it in the place of every operation. -/
  | transform {c c' : Circuit R} {f : Operation R → Except (Failure R) (Operation R)}
    (h : Circuit.Reachable c) (hf : ∀ op ∈ c, ∀ op', f op = .ok op' → op'.Reachable)
    (hc : c.mapM f = .ok c') : Circuit.Reachable c'

end

theorem Record.check_eq_ok {r r' : Record R} : r.check = .ok r' ↔ r.fault? = none ∧ r' = r := by
  rw [check]
  cases r.fault? with
  | some e => simp
  | none => simp [eq_comm]

theorem Record.fault?_eq_none_iff {r : Record R} :
    r.fault? = none ↔ (Operation.record r).WellFormed := by
  cases r with
  | twoQubit g c t =>
    constructor
    · intro h
      refine ⟨?_, by simp, by simp⟩
      rintro _ _ _ ⟨⟩ heq
      rw [fault?, if_pos heq] at h
      cases h
    · intro h
      exact if_neg (h.different g c t rfl)
  | noise kind q time =>
    cases kind with
    | general rates =>
      constructor
      · intro h
        refine ⟨by simp, ?_, by simp⟩
        rintro _ _ _ ⟨⟩
        simpa [fault?] using h
      · intro h
        have hfinite := h.finite rates q time rfl
        simpa [fault?] using hfinite
    | _ => exact ⟨fun _ => ⟨by simp, by simp, by simp⟩, fun _ => rfl⟩
  | setDensityMatrix rows =>
    constructor
    · intro h
      refine ⟨by simp, by simp, ?_⟩
      rintro _ ⟨⟩
      simpa [fault?] using h
    · intro h
      have hsquare := h.square rows rfl
      simpa [fault?] using hsquare
  | _ => exact ⟨fun _ => ⟨by simp, by simp, by simp⟩, fun _ => rfl⟩

/-- Only the rates of noise are checked. -/
theorem Record.fault?_noise {kind : Noise R} {q q' : Nat} {time time' : Scalar R} :
    (noise kind q time).fault? = (noise kind q' time').fault? := by
  cases kind <;> rfl

theorem Record.fault?_rename {r : Record R} {m : Mapping} (h : m.Permits (.record r))
    (hr : r.fault? = none) : (r.rename m.keep).fault? = none := by
  cases r with
  | twoQubit g c t => exact if_neg (Mapping.permits_twoQubit.mp h).2
  | repeatedMeasurement readout number indices => cases indices <;> rfl
  | noise kind q time => exact fault?_noise.trans hr
  | setDensityMatrix rows => exact hr
  | _ => rfl

namespace Operation

variable {op op' : Operation R}

/-- Nothing is asked of operations that are not records. -/
theorem isValid_iff : op.IsValid ↔ ∀ n ∈ op.nested, n.WellFormed := by
  constructor
  · intro h n hn
    cases n with
    | record r => exact Record.fault?_eq_none_iff.mp (h r hn)
    | block | annotated => exact ⟨by simp, by simp, by simp⟩
  · intro h r hr
    exact Record.fault?_eq_none_iff.mpr (h _ hr)

theorem isValid_record {r : Record R} : (record r).IsValid ↔ r.fault? = none := by
  simp [IsValid, nested]

theorem isValid_annotated {note : String} : (annotated op note).IsValid ↔ op.IsValid := by
  simp [IsValid, nested]

theorem isValid_block {b : Block R} {body : Circuit R} :
    (block b body).IsValid ↔ ∀ op ∈ body, op.IsValid := by
  simp only [IsValid, nested, List.mem_cons, reduceCtorEq, false_or, Circuit.mem_nested]
  grind

theorem IsValid.remap {m : Mapping} (h : op.IsValid) (hop : op.remap m = .ok op') :
    op'.IsValid := by
  obtain ⟨hpermits, rfl⟩ := remap_eq_ok.mp hop
  intro r' hr'
  rw [nested_rename] at hr'
  obtain ⟨n, hn, heq⟩ := List.mem_map.mp hr'
  cases n with
  | record r =>
    cases heq
    exact Record.fault?_rename (hpermits _ hn) (h r hn)
  | block | annotated => cases heq

theorem IsValid.substitute {vars : Expression.Variables R} (h : op.IsValid)
    (hop : op.substitute vars = .ok op') : op'.IsValid := by
  obtain ⟨value, -, -, rfl⟩ := exists_values_of_substitute hop
  exact isValid_mapScalars h

theorem IsValid.rotationPower {s : Scalar R} (h : op.IsValid)
    (hop : op.rotationPower s = .ok op') : op'.IsValid := by
  unfold Operation.rotationPower at hop
  split at hop
  · split at hop <;> cases hop
    exact isValid_record.mpr rfl
  · split at hop <;> cases hop
    rw [isValid_record, Record.fault?_eq_none_iff] at h
    exact isValid_record.mpr (if_neg (h.different _ _ _ rfl))
  · cases hop

theorem IsValid.noisePower {s : Scalar R} (h : op.IsValid) (hop : op.noisePower s = .ok op') :
    op'.IsValid := by
  unfold Operation.noisePower at hop
  split at hop <;> cases hop
  exact isValid_record.mpr (Record.fault?_noise.trans (isValid_record.mp h))

theorem isValid_of_mul {a b product : Operation R} (h : a.mul b = .ok product) :
    product.IsValid := by
  obtain ⟨⟨g, p⟩, -, h⟩ := bind_eq_ok.mp h
  obtain ⟨⟨k, q⟩, -, h⟩ := bind_eq_ok.mp h
  dsimp only at h
  split at h
  · cases h
    exact isValid_record.mpr rfl
  · cases h

theorem IsValid.unwrap (h : op.IsValid) (hop : op.unwrap = .ok op') : op'.IsValid := by
  unfold Operation.unwrap at hop
  split at hop <;> cases hop
  exact isValid_annotated.mp h

end Operation

namespace Circuit

variable {c c' : Circuit R}

theorem isValid_of_mapM {ε : Type} {f : Operation R → Except ε (Operation R)}
    (h : ∀ op ∈ c, ∀ op', f op = .ok op' → op'.IsValid) (hc : c.mapM f = .ok c') :
    ∀ op' ∈ c', op'.IsValid := by
  intro op' hop'
  obtain ⟨op, hop, hf⟩ := exists_of_mem_mapM hc hop'
  exact h op hop op' hf

theorem isValid_of_lookup {index : Nat} {op : Operation R} (h : ∀ op ∈ c, op.IsValid)
    (hop : Circuit.lookup c index = .ok op) : op.IsValid := by
  rw [Circuit.lookup] at hop
  split at hop
  · rename_i hget
    cases hop
    exact h op (List.mem_of_getElem? hget)
  · cases hop

end Circuit

/-- The circuits of a decomposition have gates on one qubit only. -/
theorem TwoGate.isValid_of_kak {g : TwoGate (Scalar R)} {control target : Nat} {c : Circuit R}
    (h : c ∈ (g.kak control target).before ∨ c ∈ (g.kak control target).after) :
    ∀ op ∈ c, op.IsValid := by
  have hrotations : ∀ {gates : List (SingleGate (Scalar R) × Nat)}, c ∈ rotations gates →
      ∀ op ∈ c, op.IsValid := by
    rintro gates ⟨⟩ op hop
    obtain ⟨gate, -, rfl⟩ := List.mem_map.mp hop
    exact Operation.isValid_record.mpr rfl
  have hnone : c ∈ (none : Option (Circuit R)) → ∀ op ∈ c, op.IsValid := nofun
  cases g <;> exact h.elim (by first | exact hrotations | exact hnone)
    (by first | exact hrotations | exact hnone)

mutual

/-- What the check of records ensures holds of all operations that are made from them. -/
theorem Operation.Reachable.isValid : ∀ {op : Operation R}, op.Reachable → op.IsValid
  | _, .record h => by
    obtain ⟨hfault, rfl⟩ := Record.check_eq_ok.mp h
    exact Operation.isValid_record.mpr hfault
  | _, .remap h hop => h.isValid.remap hop
  | _, .substitute h hop => h.isValid.substitute hop
  | _, .rotationPower h hop => h.isValid.rotationPower hop
  | _, .noisePower h hop => h.isValid.noisePower hop
  | _, .mul _ _ h => Operation.isValid_of_mul h
  | _, .annotate h => Operation.isValid_annotated.mpr h.isValid
  | _, .unwrap h hop => h.isValid.unwrap hop
  | _, .block h => Operation.isValid_block.mpr h.isValid
  | _, .lookup h hop => Circuit.isValid_of_lookup h.isValid hop

theorem Circuit.Reachable.isValid : ∀ {c : Circuit R}, Circuit.Reachable c →
    ∀ op ∈ c, op.IsValid
  | _, .empty => List.forall_mem_nil _
  | _, .add h hop =>
    List.forall_mem_append.mpr ⟨h.isValid, List.forall_mem_singleton.mpr hop.isValid⟩
  | _, .body h => Operation.isValid_block.mp h.isValid
  | _, .decompose _ _ hc => TwoGate.isValid_of_kak hc
  | _, .remap h hc =>
    Circuit.isValid_of_mapM (fun op hop _ he => (h.isValid op hop).remap he)
      ((Circuit.remap_eq_mapM _).symm.trans hc)
  | _, .substitute h hc =>
    Circuit.isValid_of_mapM (fun op hop _ he => (h.isValid op hop).substitute he)
      ((Circuit.traverse_eq_mapM _).symm.trans hc)
  | _, .transform _ hf hc =>
    Circuit.isValid_of_mapM (fun op hop op' he => (hf op hop op' he).isValid) hc

end

theorem Circuit.reachable_of_forall {c : Circuit R} (h : ∀ op ∈ c, op.Reachable) :
    Circuit.Reachable c := by
  induction c using List.reverseRecOn with
  | nil => exact .empty
  | append_singleton c op ih =>
    rw [List.forall_mem_append, List.forall_mem_singleton] at h
    exact .add (ih h.1) h.2

mutual

/-- Whatever the check lets pass can be made. -/
theorem Operation.IsValid.reachable : ∀ {op : Operation R}, op.IsValid → op.Reachable
  | .record _, h =>
    .record (Record.check_eq_ok.mpr ⟨Operation.isValid_record.mp h, rfl⟩)
  | .block .., h => .block (Circuit.reachable_of_forall
      (Circuit.reachable_of_isValid (Operation.isValid_block.mp h)))
  | .annotated .., h => .annotate (Operation.isValid_annotated.mp h).reachable

theorem Circuit.reachable_of_isValid : ∀ {c : List (Operation R)}, (∀ op ∈ c, op.IsValid) →
    ∀ op ∈ c, op.Reachable
  | [], _ => List.forall_mem_nil _
  | op :: rest, h => by
    rw [List.forall_mem_cons] at h ⊢
    exact ⟨h.1.reachable, Circuit.reachable_of_isValid h.2⟩

end

/-- An operation or a circuit can be made just when all operations inside are well formed: every
gate on two qubits has two of them, all rates of general noise are finite and every density matrix
is square. -/
theorem Operation.reachable_iff_wellFormed :
    (∀ op : Operation R, op.Reachable ↔ ∀ n ∈ op.nested, n.WellFormed) ∧
    ∀ c : Circuit R, Circuit.Reachable c ↔ ∀ n ∈ Circuit.nested c, n.WellFormed := by
  refine ⟨fun op => ?_, fun c => ?_⟩
  · rw [← isValid_iff]
    exact ⟨Reachable.isValid, IsValid.reachable⟩
  · have hnested : (∀ n ∈ Circuit.nested c, n.WellFormed) ↔ ∀ op ∈ c, op.IsValid := by
      simp only [Circuit.mem_nested, isValid_iff]
      grind
    rw [hnested]
    exact ⟨Circuit.Reachable.isValid, fun h =>
      Circuit.reachable_of_forall (Circuit.reachable_of_isValid h)⟩

/-- A controlled gate with noise, after a mapping that makes two of its qubits one. Control and
target of the gate stay apart, and a gate on one qubit twice cannot be made. -/
theorem Operation.reachable_iff_wellFormed_merged :
    let merge : Mapping := Dict.ofList [(0, 1), (1, 0), (2, 1)]
    let rates : Triple (Triple Float) := ⟨⟨1, 0, 2⟩, ⟨0, 1, 0⟩, ⟨2, 0, 3⟩⟩
    let noisy (p q r : Nat) : Operation Float :=
      .block (.controlled p) [.record (.twoQubit .cnot q r),
        .record (.noise (.general rates) q (.symbol "t")),
        .record (.setDensityMatrix [[1, 0], [0, 0]])]
    (noisy 2 0 1).remap merge = .ok (noisy 1 1 0) ∧
    (∀ n ∈ (noisy 1 1 0).nested, n.WellFormed) ∧
    ¬ (Operation.record (.twoQubit .cnot 1 1) : Operation Float).Reachable := by
  intro merge rates noisy
  have hrates : (Record.noise (.general rates) 0 (.symbol "t")).fault? = none := by decide
  have hgate : (Operation.record (.twoQubit .cnot 0 1) : Operation Float).Reachable :=
    .record (Record.check_eq_ok.mpr ⟨rfl, rfl⟩)
  have hnoise : (Operation.record (.noise (.general rates) 0 (.symbol "t"))).Reachable :=
    .record (Record.check_eq_ok.mpr ⟨hrates, rfl⟩)
  have hmatrix : (Operation.record (.setDensityMatrix [[1, 0], [0, 0]]) :
      Operation Float).Reachable := .record (Record.check_eq_ok.mpr ⟨rfl, rfl⟩)
  have hnoisy : (noisy 2 0 1).Reachable := .block (.add (.add (.add .empty hgate) hnoise) hmatrix)
  have hremap : (noisy 2 0 1).remap merge = .ok (noisy 1 1 0) := rfl
  obtain ⟨hreachable, -⟩ := reachable_iff_wellFormed (R := Float)
  refine ⟨hremap, (hreachable _).mp (hnoisy.remap hremap), fun h => ?_⟩
  exact ((hreachable _).mp h _ (List.mem_singleton_self _)).different _ 1 1 rfl rfl

end QuantumOps
