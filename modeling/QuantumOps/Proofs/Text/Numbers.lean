import QuantumOps.Proofs.Numeric.Equality
import QuantumOps.Proofs.Numeric.Format
import QuantumOps.Proofs.Operation.Numbers
import QuantumOps.Proofs.Text.Items

/-! Doubles and amplitudes can be read off their texts. A sign that is not at the beginning of a
double follows the letter of an exponent, so that the sign between the parts of an amplitude is the
first that does not. -/
namespace QuantumOps

open Text (Scanner Legible Item Moves IsWord mark mark_of_isNameChar moves_of_marks)
open Decimal (Numeral signed)
open Expression (Digits Exponent IsIdentifier evaluate)

/-! The characters of a double. -/

theorem mark_digits {ds : List Char} (h : Digits ds) : ∀ c ∈ ds, mark c = .other := by
  intro c hc
  have hdigit : c.isDigit = true := h c hc
  exact mark_of_isNameChar (by simp [Expression.isNameChar, Char.isAlphanum, hdigit])

theorem Decimal.Numeral.mark_chars (n : Numeral) : ∀ c ∈ n.chars, mark c = .other := by
  have hfraction : ∀ c ∈ n.fraction, mark c = .other := by
    rcases n.isFraction with h | ⟨ds, h, hds⟩
    · rw [h]
      exact nofun
    · rw [h]
      exact List.forall_mem_cons.mpr ⟨rfl, mark_digits hds⟩
  have hexponent : ∀ c ∈ n.exponent, mark c = .other := by
    rcases n.isExponent with h | ⟨letter, sign, ds, h, hletter, hsign, hds, -⟩
    · rw [h]
      exact nofun
    · rw [h]
      refine List.forall_mem_cons.mpr ⟨?_, List.forall_mem_append.mpr ⟨?_, mark_digits hds⟩⟩
      · rcases hletter with rfl | rfl <;> rfl
      · rcases hsign with rfl | rfl | rfl <;> simp [mark]
  exact List.forall_mem_append.mpr ⟨mark_digits n.digits,
    List.forall_mem_append.mpr ⟨hfraction, hexponent⟩⟩

/-- Reads signs only where one may stand: where reading begins, and after the letter of an
exponent. -/
def signs : Scanner Bool := fun free c =>
  if c = '+' ∨ c = '-' then if free then some false else none else some (c = 'e' ∨ c = 'E')

theorem signs_digit {c : Char} (h : c.isDigit = true) (free : Bool) :
    signs free c = some false := by
  have hsign : ¬(c = '+' ∨ c = '-') := by
    rintro (rfl | rfl) <;> cases h
  have hletter : ¬(c = 'e' ∨ c = 'E') := by
    rintro (rfl | rfl) <;> cases h
  rw [signs, if_neg hsign, decide_eq_false hletter]

theorem signs_digits {ds : List Char} (h : Digits ds) : signs.run false ds = some false :=
  Scanner.run_of_forall fun c hc => signs_digit (h c hc) false

theorem signs_digits_of_ne_nil {ds : List Char} (h : Digits ds) (hne : ds ≠ []) (free : Bool) :
    signs.run free ds = some false := by
  obtain ⟨c, ds, rfl⟩ := List.exists_cons_of_ne_nil hne
  obtain ⟨hc, hds⟩ := List.forall_mem_cons.mp h
  rw [Scanner.run, List.foldlM_cons, signs_digit hc]
  exact signs_digits hds

theorem Decimal.Numeral.signs_chars (n : Numeral) (free : Bool) :
    signs.run free n.chars = some false := by
  have hfraction : signs.run false n.fraction = some false := by
    rcases n.isFraction with h | ⟨ds, h, hds⟩
    · rw [h]
      rfl
    · rw [h, Scanner.run, List.foldlM_cons]
      exact signs_digits hds
  have hexponent : signs.run false n.exponent = some false := by
    rcases n.isExponent with h | ⟨letter, sign, ds, h, hletter, hsign, hds, hne⟩
    · rw [h]
      rfl
    · have hafter : ∀ free, signs.run free ds = some false := signs_digits_of_ne_nil hds hne
      rw [h]
      rcases hletter with rfl | rfl <;> rcases hsign with rfl | rfl | rfl <;> exact hafter _
  rw [chars, Scanner.run_append, signs_digits_of_ne_nil n.digits n.whole_ne_nil, Option.bind_some,
    Scanner.run_append, hfraction]
  exact hexponent

section
variable {x y : Float}

theorem evaluate_format (h : x.isFinite = true) :
    evaluate Dict.empty (Numeric.format x) = .ok x := by
  obtain ⟨n, hformat, -, hvalue⟩ := format_of_isFinite h
  rw [hformat, Expression.evaluate_signed (.inl n.isWhole_chars), hvalue]

theorem Double.eq_infinity_or (h : x.isFinite = false) (hx : x.isNaN = false) :
    x = 1 / 0 ∨ x = -1 / 0 := by
  rw [← shape_inj, ← shape_inj]
  have hshape : (shape x).isFinite = false := h
  rw [isNaN_eq, sign] at hx
  cases hcase : shape x with
  | notANumber =>
    rw [hcase] at hx
    cases hx
  | infinity s =>
    cases s with
    | positive => exact .inl rfl
    | negative => exact .inr rfl
  | zero s | finite s m e hm =>
    rw [hcase] at hshape
    cases hshape

theorem format_ne (hx : x.isFinite = true) (hy : y.isFinite = false) :
    Numeric.format x ≠ Numeric.format y := by
  intro h
  obtain ⟨n, hformat, -, -⟩ := format_of_isFinite hx
  obtain ⟨negative, name, hname, hformat'⟩ := format_of_not_isFinite hy
  obtain ⟨column, last, htokens⟩ :=
    Expression.tokenize_signed (.inl n.isWhole_chars) (Double.signBit x)
  have hnumber : ∀ t ∈ (Expression.scan 1 (signed negative name)).tokens, t.kind ≠ .number :=
    Expression.signed_not_number hname 1
  rw [← hformat, h, hformat', Expression.tokenize, String.toList_ofList] at htokens
  rw [htokens] at hnumber
  exact hnumber _ (List.mem_append_right _ List.mem_cons_self) rfl

/-- Doubles with a value have different texts. -/
theorem format_inj (hx : x.isNaN = false) (hy : y.isNaN = false)
    (h : Numeric.format x = Numeric.format y) : x = y := by
  cases hfinite : x.isFinite with
  | true =>
    cases hfinite' : y.isFinite with
    | true =>
      have hvalue := evaluate_format hfinite
      rw [h, evaluate_format hfinite'] at hvalue
      exact (Except.ok.inj hvalue).symm
    | false => exact absurd h (format_ne hfinite hfinite')
  | false =>
    cases hfinite' : y.isFinite with
    | true => exact absurd h.symm (format_ne hfinite' hfinite)
    | false =>
      have hne : Numeric.format (1 / 0 : Float) ≠ Numeric.format (-1 / 0 : Float) := by decide
      rcases Double.eq_infinity_or hfinite hx with rfl | rfl <;>
        rcases Double.eq_infinity_or hfinite' hy with rfl | rfl
      · rfl
      · exact absurd h hne
      · exact absurd h.symm hne
      · rfl

/-- The text of a double with a value is complete, and a sign that is not at its beginning follows
the letter of an exponent. -/
theorem format_reads (hx : x.isNaN = false) :
    Item (Numeric.format x) ∧ signs.Leads true (Numeric.format x) false := by
  cases hfinite : x.isFinite with
  | true =>
    obtain ⟨n, hformat, -, -⟩ := format_of_isFinite hfinite
    have hmarks : ∀ c ∈ (Numeric.format x).toList, mark c = .other := by
      rw [hformat, String.toList_ofList, signed]
      split
      · exact List.forall_mem_cons.mpr ⟨rfl, n.mark_chars⟩
      · exact n.mark_chars
    have hsigns : signs.Leads true (Numeric.format x) false := by
      rw [Scanner.Leads, hformat, String.toList_ofList, signed]
      split
      · exact n.signs_chars false
      · exact n.signs_chars true
    refine ⟨⟨moves_of_marks hmarks, fun hempty => ?_⟩, hsigns⟩
    rw [hempty] at hsigns
    cases hsigns
  | false =>
    rcases Double.eq_infinity_or hfinite hx with rfl | rfl
    · exact ⟨IsWord.item (by decide), rfl⟩
    · have hformat : Numeric.format (-1 / 0 : Float) = "-inf" := rfl
      rw [hformat]
      exact ⟨⟨moves_of_marks (by simp [mark]), by decide⟩, rfl⟩

theorem legible_number :
    Legible (Numeric.format : Float → String) (fun x => x.isNaN = false) Double.level :=
  ⟨fun hx => (format_reads hx).1, fun hx hy h => congrArg Double.level (format_inj hx hy h)⟩

end

namespace Amplitude

variable {z w : Amplitude Float}

/-- The sign between the parts. -/
def middle (z : Amplitude Float) : String := if decide (z.im < 0) then "-" else "+"

theorem text_eq : z.text =
    Numeric.format z.re ++ (z.middle ++ (Numeric.format z.im.abs ++ "i")) := by
  rw [text, String.append_assoc, String.append_assoc]
  rfl

theorem item_middle : Item z.middle := by
  rw [middle]
  split <;> exact ⟨fun _ => rfl, by decide⟩

theorem stops_middle (z : Amplitude Float) (rest : String) :
    signs.Stops false (z.middle ++ rest) := by
  refine Scanner.Stops.append ?_ item_middle.ne_empty
  rw [middle]
  split <;> exact fun _ => by rintro ⟨⟩; rfl

theorem middle_inj {u v : String} (h : z.middle ++ u = w.middle ++ v) :
    decide (z.im < 0) = decide (w.im < 0) ∧ u = v := by
  have hchars := congrArg String.toList h
  rw [middle, middle] at hchars
  cases hz : decide (z.im < 0) <;> cases hw : decide (w.im < 0) <;>
    simp [hz, hw] at hchars <;> exact ⟨rfl, String.toList_inj.mp hchars⟩

/-- An amplitude whose parts have values can be read off its text up to the signs of zeros. -/
theorem legible :
    Legible text (fun z : Amplitude Float => ∀ x ∈ z.numbers, x.isNaN = false)
      (map Double.level) where
  item {z} hz := by
    have hre := (format_reads (hz z.re (by simp [numbers]))).1
    have him := (format_reads (Double.isNaN_abs.trans (hz z.im (by simp [numbers])))).1
    have hi : Moves "i" 0 0 := fun _ => rfl
    rw [text_eq]
    exact ⟨hre.moves.append (item_middle.moves.append (him.moves.append hi)), fun hempty =>
      hre.ne_empty (String.append_eq_empty_iff.mp hempty).1⟩
  inj {z w} hz hw h := by
    have hre : z.re.isNaN = false ∧ w.re.isNaN = false :=
      ⟨hz z.re (by simp [numbers]), hw w.re (by simp [numbers])⟩
    have him : z.im.isNaN = false ∧ w.im.isNaN = false :=
      ⟨hz z.im (by simp [numbers]), hw w.im (by simp [numbers])⟩
    rw [text_eq, text_eq] at h
    obtain ⟨hfirst, hrest⟩ := (format_reads hre.1).2.append_inj (format_reads hre.2).2
      (stops_middle z _) (stops_middle w _) h
    obtain ⟨hsign, hlast⟩ := middle_inj hrest
    have habs : z.im.abs = w.im.abs := format_inj (Double.isNaN_abs.trans him.1)
      (Double.isNaN_abs.trans him.2) ((String.append_left_inj _).mp hlast)
    rw [map, map, format_inj hre.1 hre.2 hfirst, Double.level_eq_of_abs him.1 habs hsign]

end Amplitude

end QuantumOps
