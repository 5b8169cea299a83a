import QuantumOps.Proofs.Operation.Legible

/-! Operations and circuits are told apart by their texts, whatever is nested in them. The text of
an operation is its name with fields, so that equal texts have equal names and fields; the name
gives the kind, and the fields what is inside. -/
namespace QuantumOps

open Text (Legible Item IsLabelled IsWord legible_quoted legible_nat legible_dict item_record
  record_inj)

section
variable {b c : Block Float}

theorem Block.clean_scalars (h : Clean b.strings b.numbers) :
    ∀ s ∈ b.scalars, Clean s.strings s.numbers := by
  rw [strings, numbers, ← List.append_nil (b.scalars.flatMap Scalar.numbers)] at h
  exact (Clean.append.mp h).1.flatMap

theorem Block.isLabelled (h : Clean b.strings b.numbers) :
    ∀ field ∈ b.fields, IsLabelled field := by
  have hnat : ∀ n : Nat, Item n.repr := fun _ => legible_nat.item trivial
  have hquoted : ∀ t ∈ b.plainStrings, Item (Text.quoted t) := fun t ht =>
    legible_quoted.item (h.strings t (List.mem_append_right _ ht))
  have hdict : ∀ d : Dict Nat Nat, Item (Text.dict d) := fun _ => legible_dict.item trivial
  have hscalar : ∀ s ∈ b.scalars, Item s.text := fun s hs =>
    Scalar.legible.item (clean_scalars h s hs)
  cases b <;>
    simp only [scalars, plainStrings, List.forall_mem_cons, List.not_mem_nil, IsEmpty.forall_iff,
      implies_true, and_true] at hscalar hquoted <;>
    simp +decide [fields, IsLabelled, hnat, hquoted, hdict, hscalar]

/-- Blocks of one name with the same texts of fields are the same up to the signs of zeros. -/
theorem Block.mapNumbers_of_fields (hb : Clean b.strings b.numbers)
    (hc : Clean c.strings c.numbers) (hname : b.name = c.name) (h : b.fields = c.fields) :
    b.mapNumbers Double.level = c.mapNumbers Double.level := by
  have hnat : ∀ n m : Nat, n.repr = m.repr → n = m := fun _ _ => Text.toString_inj
  have hquoted : ∀ t u : String, Text.quoted t = Text.quoted u → t = u := fun _ _ => Text.quoted_inj
  have hdict : ∀ d e : Dict Nat Nat, Text.dict d = Text.dict e → d = e := fun _ _ =>
    legible_dict.inj trivial trivial
  have hscalar : ∀ s ∈ b.scalars, ∀ t ∈ c.scalars, s.text = t.text →
      s.mapNumber Double.level = t.mapNumber Double.level := fun s hs t ht =>
    Scalar.legible.inj (clean_scalars hb s hs) (clean_scalars hc t ht)
  have hfamily : (Operation.block b []).family = (Operation.block c []).family :=
    Operation.family_congr hname
  cases b with
  | readState quantity readout =>
    cases c with
    | readState quantity' readout' =>
      simp only [fields, List.cons.injEq, Prod.mk.injEq, true_and, and_true] at h
      rw [mapNumbers, mapNumbers, StateQuantity.readoutName_inj hname, hquoted _ _ h]
    | _ => cases hfamily
  | _ =>
    cases c <;> first
      | (cases hfamily; done)
      | (simp only [scalars, List.forall_mem_cons, List.not_mem_nil, IsEmpty.forall_iff,
          implies_true, and_true] at hscalar
         simp only [fields, List.cons.injEq, Prod.mk.injEq, true_and, and_true] at h
         grind [mapNumbers])

theorem Block.item_circuitField {circuit : String} (h : Item circuit) :
    Item (b.circuitField circuit) := by
  cases b with
  | readState quantity readout =>
    exact Text.item_enclosed "Some(" ")" (fun _ => rfl) (fun _ => rfl) (by decide) h.moves.inner
  | _ => exact h

theorem Block.circuitField_inj {circuit circuit' : String} (hname : b.name = c.name)
    (h : b.circuitField circuit = c.circuitField circuit') : circuit = circuit' := by
  have hfamily : (Operation.block b []).family = (Operation.block c []).family :=
    Operation.family_congr hname
  cases b with
  | readState quantity readout =>
    cases c with
    | readState quantity' readout' => exact Text.enclosed_inj h
    | _ => cases hfamily
  | _ =>
    cases c with
    | readState quantity' readout' => cases hfamily
    | _ => exact h

end

theorem Circuit.item_frame {texts : List String} (h : ∀ text ∈ texts, Item text) :
    Item (frame texts) := by
  refine item_record (by decide) (labelled_cons (by decide) ?_ nofun)
  exact Text.item_enclosed "[" "]" (fun _ => rfl) (fun _ => rfl) (by decide) (Text.moves_commas h)

theorem Circuit.frame_inj {texts texts' : List String} (h : ∀ text ∈ texts, Item text)
    (h' : ∀ text ∈ texts', Item text) (heq : frame texts = frame texts') : texts = texts' := by
  rw [frame, frame, Text.record, Text.record, List.map_singleton, List.map_singleton] at heq
  have hinside := Text.enclosed_inj heq
  simp only [Text.commas, String.intercalate_singleton] at hinside
  exact Text.commas_inj h h'
    (Text.enclosed_inj ((String.append_right_inj "operations: ").mp hinside))

section
variable {R : Type} [Numeric R]

/-- The fields that are written of an operation, with the circuit or operation inside. -/
def Operation.fields : Operation R → List (String × String)
  | .record r => r.fields
  | .block b body => b.fields ++ [("circuit", b.circuitField (Circuit.text body))]
  | .annotated op note => [("operation", op.text), ("annotation", Text.quoted note)]

theorem Operation.text_eq (op : Operation R) : op.text = Text.record op.name op.fields := by
  cases op <;> rfl

end

mutual

theorem Operation.isLabelled : ∀ {op : Operation Float}, Clean op.strings op.numbers →
    ∀ field ∈ op.fields, IsLabelled field
  | .record r, h => by
    rw [Operation.strings_record, Operation.numbers_record] at h
    exact (Record.isClean h).labelled
  | .block b body, h => by
    rw [Operation.strings_block, Operation.numbers_block, Clean.append] at h
    exact List.forall_mem_append.mpr ⟨Block.isLabelled h.1, labelled_cons (by decide)
      (Block.item_circuitField (Circuit.item_frame (Circuit.items_texts h.2))) nofun⟩
  | .annotated op note, h => by
    rw [Operation.strings_annotated, Operation.numbers_annotated] at h
    obtain ⟨hnote, hstrings⟩ := List.forall_mem_cons.mp h.strings
    have hop : Item op.text := by
      rw [op.text_eq]
      exact item_record op.isWord_name (Operation.isLabelled ⟨hstrings, h.numbers⟩)
    exact labelled_cons (by decide) hop
      (labelled_cons (by decide) (legible_quoted.item hnote) nofun)

theorem Circuit.items_texts : ∀ {c : List (Operation Float)},
    Clean (Circuit.strings c) (Circuit.numbers c) → ∀ text ∈ Circuit.texts c, Item text
  | [], _ => nofun
  | op :: rest, h => by
    rw [Circuit.strings_cons, Circuit.numbers_cons, Clean.append] at h
    refine List.forall_mem_cons.mpr ⟨?_, Circuit.items_texts h.2⟩
    rw [op.text_eq]
    exact item_record op.isWord_name (Operation.isLabelled h.1)

end

/-- A readout of the state without a circuit is written differently from one with a circuit. -/
theorem Operation.fields_record_ne {r : Record Float} {b : Block Float}
    {body : List (Operation Float)} (hname : r.name = b.name) :
    (record r).fields ≠ (block b body).fields := by
  have hfamily : (record r).family = (block b body).family := family_congr hname
  intro h
  cases r with
  | readState quantity readout =>
    cases b with
    | readState quantity' readout' =>
      simp only [fields, Record.fields, Block.fields, List.cons_append, List.nil_append,
        List.cons.injEq, Prod.mk.injEq, true_and, and_true] at h
      have hchars := congrArg String.toList h.2
      simp [Block.circuitField] at hchars
    | _ => cases hfamily
  | _ => cases b <;> cases hfamily

mutual

/-- Clean operations with the same text are the same up to the signs of zeros. -/
theorem Operation.mapNumbers_of_text : ∀ {a b : Operation Float}, Clean a.strings a.numbers →
    Clean b.strings b.numbers → a.text = b.text →
    a.mapNumbers Double.level = b.mapNumbers Double.level := by
  intro a b ha hb h
  rw [a.text_eq, b.text_eq] at h
  obtain ⟨hname, hfields⟩ := record_inj a.isWord_name b.isWord_name (Operation.isLabelled ha)
    (Operation.isLabelled hb) h
  have hfamily := Operation.family_congr hname
  -- of two kinds with a name in common there is only the readout, with a circuit and without
  match a, b with
  | .record r, .record s =>
    rw [Operation.strings_record, Operation.numbers_record] at ha hb
    exact congrArg Operation.record
      ((Record.isClean ha).inj (Record.isClean hb) hname hfields)
  | .block b body, .block c body' =>
    rw [Operation.strings_block, Operation.numbers_block, Clean.append] at ha hb
    obtain ⟨hblock, hcircuit⟩ := List.append_inj' hfields rfl
    have htext := Block.circuitField_inj hname (Prod.mk.inj (List.cons.inj hcircuit).1).2
    have htexts := Circuit.frame_inj (Circuit.items_texts ha.2) (Circuit.items_texts hb.2) htext
    rw [Operation.mapNumbers, Operation.mapNumbers,
      Block.mapNumbers_of_fields ha.1 hb.1 hname hblock,
      Circuit.mapNumbers_of_texts ha.2 hb.2 htexts]
  | .annotated op note, .annotated op' note' =>
    rw [Operation.strings_annotated, Operation.numbers_annotated] at ha hb
    simp only [Operation.fields, List.cons.injEq, Prod.mk.injEq, true_and, and_true] at hfields
    rw [Operation.mapNumbers, Operation.mapNumbers, Text.quoted_inj hfields.2,
      Operation.mapNumbers_of_text ⟨(List.forall_mem_cons.mp ha.strings).2, ha.numbers⟩
        ⟨(List.forall_mem_cons.mp hb.strings).2, hb.numbers⟩ hfields.1]
  | .record r, .block b body => exact absurd hfields (Operation.fields_record_ne hname)
  | .block b body, .record r => exact absurd hfields.symm (Operation.fields_record_ne hname.symm)
  | .annotated op note, .record r => cases r <;> cases hfamily
  | .annotated op note, .block b body => cases b <;> cases hfamily
  | .record r, .annotated op note => cases r <;> cases hfamily
  | .block b body, .annotated op note => cases b <;> cases hfamily

theorem Circuit.mapNumbers_of_texts : ∀ {c d : List (Operation Float)},
    Clean (Circuit.strings c) (Circuit.numbers c) →
    Clean (Circuit.strings d) (Circuit.numbers d) → Circuit.texts c = Circuit.texts d →
    Circuit.mapNumbers Double.level c = Circuit.mapNumbers Double.level d
  | [], [], _, _, _ => rfl
  | op :: rest, op' :: rest', hc, hd, h => by
    rw [Circuit.strings_cons, Circuit.numbers_cons, Clean.append] at hc hd
    obtain ⟨htext, htexts⟩ := List.cons.inj h
    rw [Circuit.mapNumbers, Circuit.mapNumbers, Operation.mapNumbers_of_text hc.1 hd.1 htext,
      Circuit.mapNumbers_of_texts hc.2 hd.2 htexts]

end

/-- Operations without quotes in their strings and with a value for every number, nested to any
depth, are equal when they are written as the same text, and so are circuits. -/
theorem beq_of_text :
    (∀ a b : Operation Float, Clean a.strings a.numbers → Clean b.strings b.numbers →
      a.text = b.text → a == b) ∧
    ∀ c d : Circuit Float, Clean (Circuit.strings c) (Circuit.numbers c) →
      Clean (Circuit.strings d) (Circuit.numbers d) → Circuit.text c = Circuit.text d →
      Circuit.beq c d := by
  constructor
  · intro a b ha hb h
    exact (Operation.beq_iff Operation.equalBy_level).mpr
      ⟨ha.numbers, Operation.mapNumbers_of_text ha hb h⟩
  · intro c d hc hd h
    have htexts := Circuit.frame_inj (Circuit.items_texts hc) (Circuit.items_texts hd) h
    exact (Circuit.beq_iff Operation.equalBy_level).mpr
      ⟨hc.numbers, Circuit.mapNumbers_of_texts hc hd htexts⟩

/-- A zero and its opposite as the imaginary part of an amplitude, in an annotated product. -/
theorem beq_of_text_zeros :
    let op (im : Float) : Operation Float := .annotated
      (.block (.pauliProduct (.ofList [(0, 1), (1, 2)]) "ro")
        [.record (.singleQubit (.rotateX (.symbol "theta")) 0),
          .record (.setStateVector [⟨1, im⟩, ⟨0.5, -1e-9⟩])]) "before, after"
    let a := op 0
    let b := op (-0)
    a ≠ b ∧ Clean a.strings a.numbers ∧ Clean b.strings b.numbers ∧ a.text = b.text ∧ a == b ∧
      Circuit.text [a, b] = Circuit.text [b, a] ∧ Circuit.beq [a, b] [b, a] := by
  intro op a b
  have ha : Clean a.strings a.numbers := ⟨by decide, by decide⟩
  have hb : Clean b.strings b.numbers := ⟨by decide, by decide⟩
  have hne : a.numbers.map Float.toBits ≠ b.numbers.map Float.toBits := by decide
  have htext : a.text = b.text := rfl
  have hpair : ∀ {x y : Operation Float}, Clean x.strings x.numbers →
      Clean y.strings y.numbers → Clean (Circuit.strings [x, y]) (Circuit.numbers [x, y]) :=
    fun hx hy => by
      rw [Circuit.strings_cons, Circuit.numbers_cons]
      exact Clean.append.mpr ⟨hx, by simpa using hy⟩
  exact ⟨fun h => hne (by rw [h]), ha, hb, htext, beq_of_text.1 a b ha hb htext, rfl,
    beq_of_text.2 [a, b] [b, a] (hpair ha hb) (hpair hb ha) rfl⟩

end QuantumOps
