import QuantumOps.Text
import QuantumOps.Proofs.Decimal.Writing
import QuantumOps.Proofs.Text.Scanning

/-! Texts in which quotes are closed, brackets match up, and commas stand in brackets only. Several
of them with commas between them are told apart, and so are the values of lists, maps and records
that are written with them. -/
namespace QuantumOps.Text

/-- What a character does where it is not quoted. -/
inductive Mark
  | quote
  | opening
  | closing
  | comma
  | other
  deriving DecidableEq

def mark (c : Char) : Mark :=
  if c = '"' then .quote
  else if c = '(' ∨ c = '[' ∨ c = '\x7b' then .opening
  else if c = ')' ∨ c = ']' ∨ c = '\x7d' then .closing
  else if c = ',' then .comma
  else .other

/-- Where a text is being read: inside quotes or not, and inside how many brackets. -/
structure Place where
  quoted : Bool
  depth : Nat

def Place.next : Place → Mark → Option Place
  | ⟨true, depth⟩, .quote => some ⟨false, depth⟩
  | ⟨true, depth⟩, _ => some ⟨true, depth⟩
  | ⟨false, depth⟩, .quote => some ⟨true, depth⟩
  | ⟨false, depth⟩, .opening => some ⟨false, depth + 1⟩
  | ⟨false, depth⟩, .other => some ⟨false, depth⟩
  | ⟨false, depth + 1⟩, .closing => some ⟨false, depth⟩
  | ⟨false, depth + 1⟩, .comma => some ⟨false, depth + 1⟩
  | ⟨false, 0⟩, .closing => none
  | ⟨false, 0⟩, .comma => none

def brackets : Scanner Place := fun p c => p.next (mark c)

/-- However deep it stands, the text leads from `i` brackets to `j`, without quotes around it. -/
def Moves (text : String) (i j : Nat) : Prop :=
  ∀ depth, brackets.Leads ⟨false, depth + i⟩ text ⟨false, depth + j⟩

/-- A text that is complete by itself, and more than nothing. -/
structure Item (text : String) : Prop where
  moves : Moves text 0 0
  ne_empty : text ≠ ""

section
variable {u v : String} {i j k : Nat}

theorem Moves.append (hu : Moves u i j) (hv : Moves v j k) : Moves (u ++ v) i k :=
  fun depth => (hu depth).append (hv depth)

/-- The same with more brackets around it. -/
theorem Moves.inner (hu : Moves u i j) : Moves u (i + 1) (j + 1) := by
  intro depth
  rw [Nat.add_comm i, Nat.add_comm j, ← Nat.add_assoc, ← Nat.add_assoc]
  exact hu (depth + 1)

theorem moves_of_marks (h : ∀ c ∈ u.toList, mark c = .other) : Moves u 0 0 := by
  intro depth
  refine Scanner.run_of_forall fun c hc => ?_
  rw [brackets, h c hc]
  rfl

theorem mark_eq_quote {c : Char} (h : mark c = .quote) : c = '"' := by
  rw [mark] at h
  split at h
  · assumption
  · split_ifs at h

/-- Between quotes nothing counts, as long as it has no quotes itself. -/
theorem moves_quoted (h : '"' ∉ u.toList) : Moves (quoted u) 0 0 := by
  intro depth
  have hopening : brackets.Leads ⟨false, depth⟩ "\"" ⟨true, depth⟩ := rfl
  have hclosing : brackets.Leads ⟨true, depth⟩ "\"" ⟨false, depth⟩ := rfl
  have hinside : brackets.Leads ⟨true, depth⟩ u ⟨true, depth⟩ := by
    refine Scanner.run_of_forall fun c hc => ?_
    have hmark : mark c ≠ .quote := fun hquote => h (mark_eq_quote hquote ▸ hc)
    rw [brackets]
    cases hcase : mark c with
    | quote => exact absurd hcase hmark
    | opening | closing | comma | other => rfl
  exact (hopening.append hinside).append hclosing

theorem item_quoted (h : '"' ∉ u.toList) : Item (quoted u) :=
  ⟨moves_quoted h, fun hempty => by simpa [quoted] using congrArg String.toList hempty⟩

theorem quoted_inj (h : quoted u = quoted v) : u = v := by
  simpa [quoted] using h

end

/-! Words, and texts that begin with one. -/

/-- Letters, digits and underscores only, and at least one of them. -/
def IsWord (text : String) : Prop :=
  text.toList ≠ [] ∧ text.toList.all Expression.isNameChar = true

instance (text : String) : Decidable (IsWord text) := inferInstanceAs (Decidable (_ ∧ _))

section
variable {u v r r' : String}

theorem mark_of_isNameChar {c : Char} (h : Expression.isNameChar c = true) : mark c = .other := by
  rw [mark]
  split_ifs with hquote hopening hclosing hcomma
  · rw [hquote] at h
    cases h
  · rcases hopening with rfl | rfl | rfl <;> cases h
  · rcases hclosing with rfl | rfl | rfl <;> cases h
  · rw [hcomma] at h
    cases h
  · rfl

theorem IsWord.item (h : IsWord u) : Item u :=
  ⟨moves_of_marks fun c hc => mark_of_isNameChar (List.all_eq_true.mp h.2 c hc), fun hempty =>
    h.1 (congrArg String.toList hempty)⟩

/-- Reads words only. -/
def wordScanner : Scanner Unit := fun _ c => if Expression.isNameChar c then some () else none

theorem IsWord.leads (h : IsWord u) : wordScanner.Leads () u () :=
  Scanner.run_of_forall fun c hc => if_pos (List.all_eq_true.mp h.2 c hc)

/-- A word before something that cannot be in a word is told apart from what follows. -/
theorem IsWord.append_inj (hu : IsWord u) (hv : IsWord v) {separator : String}
    (hs : wordScanner.Stops () separator) (hne : separator ≠ "")
    (h : u ++ separator ++ r = v ++ separator ++ r') : u = v ∧ r = r' := by
  rw [String.append_assoc, String.append_assoc] at h
  obtain ⟨huv, hrest⟩ := hu.leads.append_inj hv.leads (hs.append hne) (hs.append hne) h
  exact ⟨huv, (String.append_right_inj separator).mp hrest⟩

theorem stops_colon : wordScanner.Stops () ": " := by
  rintro c ⟨⟩
  rfl

end

/-! Several items. -/

section
variable {u v : String} {us vs : List String}

/-- What stands behind the first of several texts. -/
def afterFirst : List String → String
  | [] => ""
  | u :: us => ", " ++ commas (u :: us)

theorem commas_cons : commas (u :: us) = u ++ afterFirst us := by
  cases us with
  | nil => exact String.intercalate_singleton.trans (String.append_empty).symm
  | cons v vs => exact String.intercalate_cons_cons.trans (String.append_assoc ..)

theorem stops_afterFirst : brackets.Stops ⟨false, 0⟩ (afterFirst us) := by
  cases us with
  | nil => exact nofun
  | cons u us =>
    have hcomma : brackets.Stops ⟨false, 0⟩ ", " := by
      rintro c ⟨⟩
      rfl
    exact hcomma.append (by decide)

theorem moves_commas (h : ∀ u ∈ us, Item u) : Moves (commas us) 1 1 := by
  induction us with
  | nil => exact fun _ => rfl
  | cons u us ih =>
    obtain ⟨hu, hus⟩ := List.forall_mem_cons.mp h
    rw [commas_cons]
    refine hu.moves.inner.append ?_
    cases us with
    | nil => exact fun _ => rfl
    | cons v vs =>
      have hcomma : Moves ", " 1 1 := fun _ => rfl
      exact hcomma.append (ih hus)

theorem eq_nil_of_commas (h : ∀ u ∈ us, Item u) (hempty : commas us = "") : us = [] := by
  cases us with
  | nil => rfl
  | cons u us =>
    rw [commas_cons, String.append_eq_empty_iff] at hempty
    exact absurd hempty.1 (h u List.mem_cons_self).ne_empty

/-- Items are told apart with commas between them. -/
theorem commas_inj (hu : ∀ u ∈ us, Item u) (hv : ∀ v ∈ vs, Item v) (h : commas us = commas vs) :
    us = vs := by
  induction us generalizing vs with
  | nil => exact (eq_nil_of_commas hv h.symm).symm
  | cons u us ih =>
    cases vs with
    | nil => exact eq_nil_of_commas hu h
    | cons v vs =>
      obtain ⟨hu, hus⟩ := List.forall_mem_cons.mp hu
      obtain ⟨hv, hvs⟩ := List.forall_mem_cons.mp hv
      rw [commas_cons, commas_cons] at h
      obtain ⟨rfl, hafter⟩ := (hu.moves 0).append_inj (hv.moves 0) stops_afterFirst
        stops_afterFirst h
      cases us with
      | nil =>
        cases vs with
        | nil => rfl
        | cons v vs => exact absurd hafter.symm (by simp [afterFirst])
      | cons u us =>
        cases vs with
        | nil => exact absurd hafter (by simp [afterFirst])
        | cons v vs => rw [ih hus hvs ((String.append_right_inj _).mp hafter)]

end

/-! Values that are written as items. -/

/-- Clean values are written as items, which are the same only if `f` does not tell the values
apart. -/
structure Legible {α β : Type} (text : α → String) (clean : α → Prop) (f : α → β) : Prop where
  item : ∀ {x}, clean x → Item (text x)
  inj : ∀ {x y}, clean x → clean y → text x = text y → f x = f y

/-- Brackets, perhaps with a name before them, and something inside. -/
theorem item_enclosed (opening closing : String) {inside : String} (ho : Moves opening 0 1)
    (hc : Moves closing 1 0) (hne : opening ≠ "") (hi : Moves inside 1 1) :
    Item (opening ++ inside ++ closing) :=
  ⟨(ho.append hi).append hc, fun hempty => hne
    (String.append_eq_empty_iff.mp (String.append_eq_empty_iff.mp hempty).1).1⟩

theorem enclosed_inj {opening closing inside inside' : String}
    (h : opening ++ inside ++ closing = opening ++ inside' ++ closing) : inside = inside' :=
  (String.append_right_inj opening).mp ((String.append_left_inj closing).mp h)

namespace Legible

variable {α β : Type} {text : α → String} {clean : α → Prop} {f : α → β}

theorem moves_commas (h : Legible text clean f) {xs : List α} (hxs : ∀ x ∈ xs, clean x) :
    Moves (commas (xs.map text)) 1 1 :=
  Text.moves_commas (List.forall_mem_map.mpr fun x hx => h.item (hxs x hx))

theorem map_inj (h : Legible text clean f) : ∀ {xs ys : List α}, (∀ x ∈ xs, clean x) →
    (∀ y ∈ ys, clean y) → xs.map text = ys.map text → xs.map f = ys.map f
  | [], [], _, _, _ => rfl
  | x :: xs, y :: ys, hxs, hys, heq => by
    obtain ⟨hx, hxs⟩ := List.forall_mem_cons.mp hxs
    obtain ⟨hy, hys⟩ := List.forall_mem_cons.mp hys
    obtain ⟨hhead, htail⟩ := List.cons.inj heq
    rw [List.map_cons, List.map_cons, h.inj hx hy hhead, h.map_inj hxs hys htail]

theorem commas_inj (h : Legible text clean f) {xs ys : List α} (hxs : ∀ x ∈ xs, clean x)
    (hys : ∀ y ∈ ys, clean y) (heq : commas (xs.map text) = commas (ys.map text)) :
    xs.map f = ys.map f :=
  h.map_inj hxs hys (Text.commas_inj (List.forall_mem_map.mpr fun x hx => h.item (hxs x hx))
    (List.forall_mem_map.mpr fun y hy => h.item (hys y hy)) heq)

theorem list (h : Legible text clean f) :
    Legible (Text.list text) (fun xs => ∀ x ∈ xs, clean x) (List.map f) :=
  ⟨fun hxs => item_enclosed "[" "]" (fun _ => rfl) (fun _ => rfl) (by decide) (h.moves_commas hxs),
    fun hxs hys heq => h.commas_inj hxs hys (enclosed_inj heq)⟩

theorem option (h : Legible text clean f) :
    Legible (Text.option text) (fun x? => ∀ x ∈ x?, clean x) (Option.map f) where
  item {x?} hx := by
    cases x? with
    | none =>
      have hword : IsWord "None" := by decide
      exact hword.item
    | some x =>
      exact item_enclosed "Some(" ")" (fun _ => rfl) (fun _ => rfl) (by decide)
        (h.item (hx x rfl)).moves.inner
  inj {x? y?} hx hy heq := by
    cases x? with
    | none =>
      cases y? with
      | none => rfl
      | some y =>
        have hchars := congrArg String.toList heq
        simp [Text.option] at hchars
    | some x =>
      cases y? with
      | none =>
        have hchars := congrArg String.toList heq
        simp [Text.option] at hchars
      | some y => exact congrArg some (h.inj (hx x rfl) (hy y rfl) (enclosed_inj heq))

end Legible

theorem legible_quoted : Legible quoted (fun s => '"' ∉ s.toList) id :=
  ⟨item_quoted, fun _ _ => quoted_inj⟩

theorem legible_bool : Legible Text.bool (fun _ => True) id where
  item {b} _ := by
    have hword : IsWord (Text.bool b) := by
      cases b <;> decide
    exact hword.item
  inj {b b'} _ _ h := by
    revert b b'
    decide

theorem isWord_nat (n : Nat) : IsWord (toString n) := by
  have hchars : (toString n).toList = Nat.toDigits 10 n := by simp
  rw [IsWord, hchars]
  refine ⟨Nat.toDigits_ne_nil, List.all_eq_true.mpr fun c hc => ?_⟩
  have hdigit : c.isDigit = true := Decimal.digits_toDigits n c hc
  simp [Expression.isNameChar, Char.isAlphanum, hdigit]

theorem toString_inj {n m : Nat} (h : toString n = toString m) : n = m := by
  have hchars : Nat.toDigits 10 n = Nat.toDigits 10 m := by
    simpa using congrArg String.toList h
  rw [← Decimal.ofDigits_toDigits n, hchars, Decimal.ofDigits_toDigits]

theorem legible_nat : Legible (fun n : Nat => toString n) (fun _ => True) id :=
  ⟨fun _ => (isWord_nat _).item, fun _ _ => toString_inj⟩

theorem legible_byte : Legible (fun b : UInt8 => toString b.toNat) (fun _ => True) id :=
  ⟨fun _ => (isWord_nat _).item, fun _ _ h => UInt8.toNat_inj.mp (toString_inj h)⟩

/-- A word with a colon before what it labels. -/
theorem item_labelled {label text : String} (hl : IsWord label) (ht : Item text) :
    Item (label ++ ": " ++ text) := by
  have hcolon : Moves ": " 0 0 := fun _ => rfl
  exact ⟨(hl.item.moves.append hcolon).append ht.moves, fun hempty => hl.item.ne_empty
    (String.append_eq_empty_iff.mp (String.append_eq_empty_iff.mp hempty).1).1⟩

theorem legible_entry :
    Legible (fun e : Nat × Nat => toString e.1 ++ ": " ++ toString e.2) (fun _ => True) id :=
  ⟨fun _ => item_labelled (isWord_nat _) (isWord_nat _).item, fun _ _ h => by
    obtain ⟨hkey, hvalue⟩ := (isWord_nat _).append_inj (isWord_nat _) stops_colon (by decide) h
    exact Prod.ext (toString_inj hkey) (toString_inj hvalue)⟩

theorem legible_dict : Legible Text.dict (fun _ => True) id :=
  ⟨fun _ => item_enclosed "\x7b" "\x7d" (fun _ => rfl) (fun _ => rfl) (by decide)
      (legible_entry.moves_commas fun _ _ => trivial), fun _ _ heq => by
    have hentries := legible_entry.commas_inj (fun _ _ => trivial) (fun _ _ => trivial)
      (enclosed_inj heq)
    rw [List.map_id, List.map_id] at hentries
    exact Dict.ext hentries⟩

/-! Records. -/

/-- The label is a word and the text of the field is complete. -/
def IsLabelled (field : String × String) : Prop := IsWord field.1 ∧ Item field.2

section
variable {name name' : String} {fields fields' : List (String × String)}

theorem IsLabelled.item {field : String × String} (h : IsLabelled field) :
    Item (field.1 ++ ": " ++ field.2) :=
  item_labelled h.1 h.2

theorem item_record (hn : IsWord name) (hf : ∀ field ∈ fields, IsLabelled field) :
    Item (record name fields) := by
  have hopening : Moves " \x7b " 0 1 := fun _ => rfl
  have hclosing : Moves " \x7d" 1 0 := fun _ => rfl
  have hinside := moves_commas (List.forall_mem_map.mpr fun field h => (hf field h).item)
  exact ⟨((hn.item.moves.append hopening).append hinside).append hclosing, fun hempty =>
    hn.item.ne_empty (by simp [record] at hempty)⟩

/-- Records with the same text have the same name, labels and texts of fields. -/
theorem record_inj (hn : IsWord name) (hn' : IsWord name') (hf : ∀ field ∈ fields, IsLabelled field)
    (hf' : ∀ field ∈ fields', IsLabelled field) (h : record name fields = record name' fields') :
    name = name' ∧ fields = fields' := by
  have hspace : wordScanner.Stops () " \x7b " := by
    rintro c ⟨⟩
    rfl
  obtain ⟨rfl, hinside⟩ := hn.append_inj hn' hspace (by decide) ((String.append_left_inj _).mp h)
  have hlegible :
      Legible (fun field : String × String => field.1 ++ ": " ++ field.2) IsLabelled id :=
    ⟨IsLabelled.item, fun hx hy heq => by
      obtain ⟨hlabel, htext⟩ := hx.1.append_inj hy.1 stops_colon (by decide) heq
      exact Prod.ext hlabel htext⟩
  have hfields := hlegible.commas_inj hf hf' hinside
  rw [List.map_id, List.map_id] at hfields
  exact ⟨rfl, hfields⟩

end

end QuantumOps.Text
