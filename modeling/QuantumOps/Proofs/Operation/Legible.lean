import QuantumOps.Proofs.Operation.Congruence
import QuantumOps.Proofs.Operation.Names
import QuantumOps.Proofs.Text.Numbers

/-! The text of an operation tells what the operation is. Strings are written without escapes, so
that they must not have quotes, and numbers without a value are not told apart. -/
namespace QuantumOps

open Text (Legible Item Moves IsWord IsLabelled legible_quoted legible_nat legible_bool legible_byte
  legible_dict item_record record_inj)

/-! The strings of an operation. -/

section
variable {R : Type}

def Scalar.strings : Scalar R → List String
  | number _ => []
  | symbol e => [e]

/-- The strings of a record that are no symbolic scalars. -/
def Record.plainStrings : Record R → List String
  | setNumberOfMeasurements _ readout | measureQubit _ readout _ | readState _ readout
  | repeatedMeasurement readout _ _ => [readout]
  | overrotation gate _ _ _ => [gate]
  | changeDevice tags name _ => name :: tags
  | definition _ name _ _ | inputSymbolic name _ => [name]
  | _ => []

def Record.strings (r : Record R) : List String :=
  r.scalars.flatMap Scalar.strings ++ r.plainStrings

/-- The strings of a block that are no symbolic scalars, those of its circuit apart. -/
def Block.plainStrings : Block R → List String
  | conditional register _ => [register]
  | pauliProduct _ readout | readState _ readout => [readout]
  | _ => []

def Block.strings (b : Block R) : List String := b.scalars.flatMap Scalar.strings ++ b.plainStrings

/-- The strings that an operation has itself. -/
def Operation.ownStrings : Operation R → List String
  | .record r => r.strings
  | .block b _ => b.strings
  | .annotated _ note => [note]

/-- The strings of an operation, inside and out. -/
def Operation.strings (op : Operation R) : List String := op.nested.flatMap Operation.ownStrings

def Circuit.strings (c : List (Operation R)) : List String :=
  (Circuit.nested c).flatMap Operation.ownStrings

@[simp] theorem Operation.strings_record {r : Record R} : (record r).strings = r.strings :=
  List.append_nil _

@[simp] theorem Operation.strings_block {b : Block R} {body : List (Operation R)} :
    (block b body).strings = b.strings ++ Circuit.strings body := by
  rw [strings, nested, List.flatMap_cons]
  rfl

@[simp] theorem Operation.strings_annotated {op : Operation R} {note : String} :
    (annotated op note).strings = note :: op.strings := by
  rw [strings, nested, List.flatMap_cons]
  rfl

@[simp] theorem Circuit.strings_nil : strings ([] : List (Operation R)) = [] := rfl

@[simp] theorem Circuit.strings_cons {op : Operation R} {rest : List (Operation R)} :
    strings (op :: rest) = op.strings ++ strings rest := by
  rw [strings, nested, List.flatMap_append]
  rfl

end

/-- Strings without quotes and numbers with values. -/
structure Clean (strings : List String) (numbers : List Float) : Prop where
  strings : ∀ s ∈ strings, '"' ∉ s.toList
  numbers : ∀ x ∈ numbers, x.isNaN = false

theorem Clean.append {ss ts : List String} {xs ys : List Float} :
    Clean (ss ++ ts) (xs ++ ys) ↔ Clean ss xs ∧ Clean ts ys := by
  constructor
  · rintro ⟨hs, hx⟩
    rw [List.forall_mem_append] at hs hx
    exact ⟨⟨hs.1, hx.1⟩, hs.2, hx.2⟩
  · rintro ⟨⟨hs, hx⟩, ht, hy⟩
    exact ⟨List.forall_mem_append.mpr ⟨hs, ht⟩, List.forall_mem_append.mpr ⟨hx, hy⟩⟩

theorem Clean.flatMap {α : Type} {xs : List α} {strings : α → List String}
    {numbers : α → List Float} (h : Clean (xs.flatMap strings) (xs.flatMap numbers)) :
    ∀ x ∈ xs, Clean (strings x) (numbers x) :=
  fun x hx => ⟨List.forall_mem_flatMap.mp h.strings x hx, List.forall_mem_flatMap.mp h.numbers x hx⟩

theorem Scalar.text_symbol {R : Type} [Numeric R] (e : String) :
    (symbol e : Scalar R).text = "Str(" ++ Text.quoted e ++ ")" := by
  rw [← String.toList_inj]
  simp [text, Text.quoted]

theorem Scalar.text_ne {R : Type} [Numeric R] (x : R) (e : String) :
    (number x).text ≠ (symbol e : Scalar R).text := by
  intro h
  have hchars := congrArg String.toList h
  simp [text] at hchars

theorem Scalar.legible : Legible text (fun s : Scalar Float => Clean s.strings s.numbers)
    (mapNumber Double.level) where
  item {s} h := by
    cases s with
    | number x =>
      exact Text.item_enclosed "Float(" ")" (fun _ => rfl) (fun _ => rfl) (by decide)
        (legible_number.item (h.numbers x List.mem_cons_self)).moves.inner
    | symbol e =>
      rw [text_symbol]
      exact Text.item_enclosed "Str(" ")" (fun _ => rfl) (fun _ => rfl) (by decide)
        (legible_quoted.item (h.strings e List.mem_cons_self)).moves.inner
  inj {s t} hs ht h := by
    cases s with
    | number x =>
      cases t with
      | number y =>
        exact congrArg number (legible_number.inj (hs.numbers x List.mem_cons_self)
          (ht.numbers y List.mem_cons_self) (Text.enclosed_inj h))
      | symbol e => exact absurd h (text_ne x e)
    | symbol e =>
      cases t with
      | number y => exact absurd h.symm (text_ne y e)
      | symbol e' => exact congrArg symbol (Text.enclosed_inj h)

/-! The fields of records and blocks. -/

theorem SingleGate.isWord_label {α : Type} (g : SingleGate α) : ∀ p ∈ g.parameters, IsWord p.1 := by
  cases g <;> simp only [parameters, List.forall_mem_cons, List.not_mem_nil, IsEmpty.forall_iff,
    implies_true] <;> decide

theorem TwoGate.isWord_label {α : Type} (g : TwoGate α) : ∀ p ∈ g.parameters, IsWord p.1 := by
  cases g <;> simp only [parameters, List.forall_mem_cons, List.not_mem_nil, IsEmpty.forall_iff,
    implies_true] <;> decide

theorem labelled_cons {label text : String} {rest : List (String × String)} (hl : IsWord label)
    (ht : Item text) (h : ∀ field ∈ rest, IsLabelled field) :
    ∀ field ∈ (label, text) :: rest, IsLabelled field :=
  List.forall_mem_cons.mpr ⟨⟨hl, ht⟩, h⟩

/-- The scalars of a record are clean, and so is all else that is written of it. -/
structure Record.IsClean (r : Record Float) : Prop where
  scalars : ∀ s ∈ r.scalars, Clean s.strings s.numbers
  strings : ∀ s ∈ r.plainStrings, '"' ∉ s.toList
  numbers : ∀ x ∈ r.plainNumbers, x.isNaN = false

theorem Record.isClean {r : Record Float} (h : Clean r.strings r.numbers) : r.IsClean := by
  obtain ⟨hscalars, hplain⟩ := Clean.append.mp h
  exact ⟨hscalars.flatMap, hplain.strings, hplain.numbers⟩

section
variable {r s : Record Float}

/-- The fields of a clean record have words as labels and complete texts. -/
theorem Record.IsClean.labelled (h : r.IsClean) : ∀ field ∈ r.fields, IsLabelled field := by
  have hnat : ∀ n : Nat, Item n.repr := fun _ => legible_nat.item trivial
  have hnats : ∀ qs : List Nat, Item (Text.list toString qs) := fun _ =>
    legible_nat.list.item fun _ _ => trivial
  have hscalar : ∀ s ∈ r.scalars, Item s.text := fun s hs => Scalar.legible.item (h.scalars s hs)
  have hquoted : ∀ t ∈ r.plainStrings, Item (Text.quoted t) := fun t ht =>
    legible_quoted.item (h.strings t ht)
  have hnumber : ∀ x ∈ r.plainNumbers, Item (Numeric.format x) := fun x hx =>
    legible_number.item (h.numbers x hx)
  have hdict : ∀ d : Dict Nat Nat, Item (Text.dict d) := fun _ => legible_dict.item trivial
  cases r with
  | singleQubit g q =>
    exact labelled_cons (by decide) (hnat q) (List.forall_mem_map.mpr fun p hp =>
      ⟨g.isWord_label p hp, hscalar p.2 (List.mem_map_of_mem hp)⟩)
  | twoQubit g c t =>
    exact labelled_cons (by decide) (hnat c) (labelled_cons (by decide) (hnat t)
      (List.forall_mem_map.mpr fun p hp =>
        ⟨g.isWord_label p hp, hscalar p.2 (List.mem_map_of_mem hp)⟩))
  | noise kind q time =>
    have htime := hscalar time List.mem_cons_self
    cases kind with
    | general rates =>
      have hrates : Item (Text.list (Text.list Numeric.format) (rates.toList.map Triple.toList)) :=
        legible_number.list.list.item (List.forall_mem_map.mpr fun row hrow x hx =>
          h.numbers x (List.mem_flatMap_of_mem hrow hx))
      exact labelled_cons (by decide) (hnat q) (labelled_cons (by decide) htime
        (labelled_cons (by decide) hrates nofun))
    | damping rate | depolarising rate | dephasing rate =>
      have hrate := hscalar rate (by simp [Record.scalars, Noise.rates])
      simp +decide [fields, IsLabelled, Noise.rates, hnat, htime, hrate]
    | random rate rate' =>
      have hrate := hscalar rate (by simp [Record.scalars, Noise.rates])
      have hrate' := hscalar rate' (by simp [Record.scalars, Noise.rates])
      simp +decide [fields, IsLabelled, Noise.rates, hnat, htime, hrate, hrate']
  | setStateVector amplitudes =>
    exact labelled_cons (by decide) (Amplitude.legible.list.item
      (List.forall_mem_flatMap.mp h.numbers)) nofun
  | setDensityMatrix rows =>
    refine labelled_cons (by decide) (Amplitude.legible.list.list.item fun row hrow =>
      List.forall_mem_flatMap.mp (List.forall_mem_flatMap.mp h.numbers row hrow)) nofun
  | changeDevice tags name encoded =>
    obtain ⟨hname, htags⟩ := List.forall_mem_cons.mp h.strings
    exact labelled_cons (by decide) (legible_quoted.list.item htags) (labelled_cons (by decide)
      (legible_quoted.item hname) (labelled_cons (by decide)
        (legible_byte.list.item fun _ _ => trivial) nofun))
  | repeatedMeasurement readout number indices =>
    exact labelled_cons (by decide) (hquoted _ List.mem_cons_self) (labelled_cons (by decide)
      (hnat number) (labelled_cons (by decide) (legible_dict.option.item fun _ _ => trivial)
        nofun))
  | definition type name length isOutput =>
    exact labelled_cons (by decide) (hquoted _ List.mem_cons_self) (labelled_cons (by decide)
      (hnat length) (labelled_cons (by decide) (legible_bool.item trivial) nofun))
  | _ =>
    simp only [Record.scalars, Record.plainStrings, Record.plainNumbers, List.forall_mem_cons,
      List.not_mem_nil, IsEmpty.forall_iff, implies_true, and_true] at hscalar hquoted hnumber
    simp +decide [fields, IsLabelled, IsWord.item, hnat, hnats, hdict, hscalar, hquoted, hnumber]

/-- Labelled scalars with the same texts are the same up to the sign of zero. -/
theorem Scalar.values_inj {ps qs : List (String × Scalar Float)}
    (hps : ∀ s ∈ ps.map Prod.snd, Clean s.strings s.numbers)
    (hqs : ∀ s ∈ qs.map Prod.snd, Clean s.strings s.numbers)
    (h : (ps.map fun p => (p.1, p.2.text)) = qs.map fun p => (p.1, p.2.text)) :
    (ps.map Prod.snd).map (mapNumber Double.level) =
      (qs.map Prod.snd).map (mapNumber Double.level) := by
  have htexts := congrArg (List.map Prod.snd) h
  rw [List.map_map, List.map_map] at htexts
  refine legible.map_inj hps hqs ?_
  rw [List.map_map, List.map_map]
  exact htexts

theorem Noise.ctorIdx_congr {kind kind' : Noise Float} (h : kind.name = kind'.name) :
    kind.ctorIdx = kind'.ctorIdx := by
  cases kind <;> cases kind' <;> first
    | rfl
    | simp [name] at h

/-- The rates of general noise, as their rows are written. -/
theorem Noise.rates_inj {rates rates' : Triple (Triple Float)}
    (h : ∀ x ∈ (general rates).plainNumbers, x.isNaN = false)
    (h' : ∀ x ∈ (general rates').plainNumbers, x.isNaN = false)
    (heq : Text.list (Text.list Numeric.format) (rates.toList.map Triple.toList) =
      Text.list (Text.list Numeric.format) (rates'.toList.map Triple.toList)) :
    rates.map (Triple.map Double.level) = rates'.map (Triple.map Double.level) := by
  have hclean : ∀ {rates : Triple (Triple Float)},
      (∀ x ∈ (general rates).plainNumbers, x.isNaN = false) →
      ∀ row ∈ rates.toList.map Triple.toList, ∀ x ∈ row, x.isNaN = false := fun h =>
    List.forall_mem_map.mpr fun row hrow x hx => h x (List.mem_flatMap_of_mem hrow hx)
  have hrows := legible_number.list.list.inj (hclean h) (hclean h') heq
  simpa [Triple.toList, Triple.map] using hrows

theorem Record.IsClean.scalar_inj (hr : r.IsClean) (hs : s.IsClean) : ∀ a ∈ r.scalars,
    ∀ b ∈ s.scalars, a.text = b.text →
      a.mapNumber Double.level = b.mapNumber Double.level :=
  fun a ha b hb => Scalar.legible.inj (hr.scalars a ha) (hs.scalars b hb)

/-- Noise of one name with the same texts of fields. -/
theorem Record.IsClean.inj_noise {kind kind' : Noise Float} {q q' : Nat} {time time' : Scalar Float}
    (hr : (noise kind q time).IsClean) (hs : (noise kind' q' time').IsClean)
    (hname : kind.name = kind'.name)
    (h : (noise kind q time).fields = (noise kind' q' time').fields) :
    kind.mapNumbers Double.level = kind'.mapNumbers Double.level ∧ q = q' ∧
      time.mapNumber Double.level = time'.mapNumber Double.level := by
  have hnat : ∀ n m : Nat, n.repr = m.repr → n = m := fun _ _ => Text.toString_inj
  have hscalar := hr.scalar_inj hs
  have hkind : kind.ctorIdx = kind'.ctorIdx := Noise.ctorIdx_congr hname
  cases kind with
  | general rates =>
    cases kind' with
    | general rates' =>
      simp only [Record.fields, List.cons.injEq, Prod.mk.injEq, true_and, and_true] at h
      obtain ⟨hqubit, htime, hrates⟩ := h
      rw [Noise.mapNumbers, Noise.mapNumbers, Noise.rates_inj hr.numbers hs.numbers hrates]
      exact ⟨rfl, hnat _ _ hqubit,
        hscalar time List.mem_cons_self time' List.mem_cons_self htime⟩
    | damping | depolarising | dephasing | random => cases hkind
  | damping | depolarising | dephasing | random =>
    cases kind' <;> first
      | (cases hkind; done)
      | (simp only [Record.scalars, Noise.rates, List.map_cons, List.map_nil,
          List.forall_mem_cons, List.not_mem_nil, IsEmpty.forall_iff, implies_true,
          and_true] at hscalar
         simp only [fields, Noise.rates, List.map_cons, List.map_nil, List.cons.injEq,
           Prod.mk.injEq, true_and, and_true] at h
         grind [Noise.mapNumbers])

/-- Clean records of one name with the same texts of fields are the same up to the signs of
zeros. -/
theorem Record.IsClean.inj (hr : r.IsClean) (hs : s.IsClean) (hname : r.name = s.name)
    (h : r.fields = s.fields) : r.mapNumbers Double.level = s.mapNumbers Double.level := by
  have hnat : ∀ n m : Nat, n.repr = m.repr → n = m := fun _ _ => Text.toString_inj
  have hnats : ∀ qs ps : List Nat, Text.list toString qs = Text.list toString ps → qs = ps := by
    intro qs ps heq
    simpa using legible_nat.list.inj (fun _ _ => trivial) (fun _ _ => trivial) heq
  have hscalar := hr.scalar_inj hs
  have hnumber : ∀ x ∈ r.plainNumbers, ∀ y ∈ s.plainNumbers,
      (Numeric.format x = Numeric.format y) → Double.level x = Double.level y := fun x hx y hy =>
    legible_number.inj (hr.numbers x hx) (hs.numbers y hy)
  have hquoted : ∀ t u : String, Text.quoted t = Text.quoted u → t = u := fun _ _ => Text.quoted_inj
  have hdict : ∀ d e : Dict Nat Nat, Text.dict d = Text.dict e → d = e := fun _ _ =>
    legible_dict.inj trivial trivial
  have hfamily : (Operation.record r).family = (Operation.record s).family :=
    Operation.family_congr hname
  cases r with
  | singleQubit g q =>
    cases s with
    | singleQubit g' q' =>
      obtain ⟨hqubit, hparameters⟩ := List.cons.inj h
      have hg : g.map (Scalar.mapNumber Double.level) = g'.map (Scalar.mapNumber Double.level) := by
        rw [SingleGate.eq_iff, g.name_map, g'.name_map, g.parameters_map, g'.parameters_map]
        exact ⟨hname, Scalar.values_inj hr.scalars hs.scalars hparameters⟩
      rw [mapNumbers, mapNumbers, hg, hnat q q' (Prod.mk.inj hqubit).2]
    | _ => cases hfamily
  | twoQubit g c t =>
    cases s with
    | twoQubit g' c' t' =>
      obtain ⟨hcontrol, hrest⟩ := List.cons.inj h
      obtain ⟨htarget, hparameters⟩ := List.cons.inj hrest
      have hg : g.map (Scalar.mapNumber Double.level) = g'.map (Scalar.mapNumber Double.level) := by
        rw [TwoGate.eq_iff, g.name_map, g'.name_map, g.parameters_map, g'.parameters_map]
        exact ⟨hname, Scalar.values_inj hr.scalars hs.scalars hparameters⟩
      rw [mapNumbers, mapNumbers, hg, hnat c c' (Prod.mk.inj hcontrol).2,
        hnat t t' (Prod.mk.inj htarget).2]
    | _ => cases hfamily
  | noise kind q time =>
    cases s with
    | noise kind' q' time' =>
      obtain ⟨hkind, hqubit, htime⟩ := hr.inj_noise hs hname h
      rw [mapNumbers, mapNumbers, hkind, hqubit, htime]
    | _ => cases hfamily
  | setStateVector amplitudes =>
    cases s with
    | setStateVector amplitudes' =>
      have hamplitudes := Amplitude.legible.list.inj (List.forall_mem_flatMap.mp hr.numbers)
        (List.forall_mem_flatMap.mp hs.numbers) (Prod.mk.inj (List.cons.inj h).1).2
      rw [mapNumbers, mapNumbers, hamplitudes]
    | _ => cases hfamily
  | setDensityMatrix rows =>
    cases s with
    | setDensityMatrix rows' =>
      have hclean : ∀ {rows : List (List (Amplitude Float))}, (setDensityMatrix rows).IsClean →
          ∀ row ∈ rows, ∀ z ∈ row, ∀ x ∈ z.numbers, x.isNaN = false := fun h row hrow =>
        List.forall_mem_flatMap.mp (List.forall_mem_flatMap.mp h.numbers row hrow)
      have hrows := Amplitude.legible.list.list.inj (hclean hr) (hclean hs)
        (Prod.mk.inj (List.cons.inj h).1).2
      rw [mapNumbers, mapNumbers, hrows]
    | _ => cases hfamily
  | changeDevice tags name encoded =>
    cases s with
    | changeDevice tags' name' encoded' =>
      obtain ⟨hname, htags⟩ := List.forall_mem_cons.mp hr.strings
      obtain ⟨hname', htags'⟩ := List.forall_mem_cons.mp hs.strings
      simp only [fields, List.cons.injEq, Prod.mk.injEq, true_and, and_true] at h
      obtain ⟨htexts, htext, hbytes⟩ := h
      have htags := legible_quoted.list.inj htags htags' htexts
      have hencoded := legible_byte.list.inj (fun _ _ => trivial) (fun _ _ => trivial) hbytes
      rw [List.map_id, List.map_id] at htags hencoded
      rw [mapNumbers, mapNumbers, htags, hquoted _ _ htext, hencoded]
    | _ => cases hfamily
  | repeatedMeasurement readout number indices =>
    cases s with
    | repeatedMeasurement readout' number' indices' =>
      simp only [fields, List.cons.injEq, Prod.mk.injEq, true_and, and_true] at h
      obtain ⟨hreadout, hcount, hindices⟩ := h
      have hindices : indices = indices' := by
        simpa using legible_dict.option.inj (fun _ _ => trivial) (fun _ _ => trivial) hindices
      rw [mapNumbers, mapNumbers, hquoted _ _ hreadout, hnat _ _ hcount, hindices]
    | _ => cases hfamily
  | definition type name length isOutput =>
    cases s with
    | definition type' name' length' isOutput' =>
      simp only [fields, List.cons.injEq, Prod.mk.injEq, true_and, and_true] at h
      obtain ⟨hregister, hlength, houtput⟩ := h
      have houtput : isOutput = isOutput' := legible_bool.inj trivial trivial houtput
      rw [mapNumbers, mapNumbers, RegisterType.definitionName_inj hname, hquoted _ _ hregister,
        hnat _ _ hlength, houtput]
    | _ => cases hfamily
  | readState quantity readout =>
    cases s with
    | readState quantity' readout' =>
      simp only [fields, List.cons.injEq, Prod.mk.injEq, true_and, and_true] at h
      rw [mapNumbers, mapNumbers, StateQuantity.readoutName_inj hname, hquoted _ _ h]
    | _ => cases hfamily
  | _ =>
    cases s <;> first
      | (cases hfamily; done)
      | (simp only [Record.scalars, Record.plainNumbers, List.forall_mem_cons, List.not_mem_nil,
          IsEmpty.forall_iff, implies_true, and_true] at hscalar hnumber
         simp only [fields, List.cons.injEq, Prod.mk.injEq, true_and, and_true] at h
         grind [mapNumbers])

end

end QuantumOps
