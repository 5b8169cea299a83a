import QuantumOps.Proofs.Expression.Lexing

/-! Tokens that are asked for one at a time. A request starts where the one before has ended and
passes at least one character, unless the text has ended already, so that a text allows no more
requests than it has characters and one. -/
namespace QuantumOps.Expression

/-- Where a text is being taken apart: the column of the next character and the characters left. -/
structure Cursor where
  column : Nat
  left : List Char

/-- What is in sight: a token, or how the text ends. -/
inductive Sight
  | token (t : Token)
  | ending (ending : Ending)

/-- How many characters after the first are passed before a fault is found. -/
def faultLength (rest : List Char) : LexicalFault → Nat
  | .unexpectedCharacter => 0
  | .missingExponentDigits =>
    let whole := digitRun rest
    let mantissa := whole + fractionLength (rest.drop whole)
    mantissa + 1 + signLength (rest.drop (mantissa + 1))

/-- The next token of a text or its ending, and where the text goes on. -/
def next (column : Nat) : List Char → Sight × Cursor
  | [] => (.ending (.endOfText column), ⟨column, []⟩)
  | c :: rest =>
    if isBlank c then next (column + 1) rest
    else
      match munch c rest with
      | .error cause =>
        let n := faultLength rest cause
        (.ending (.fault cause column), ⟨column + 1 + n, rest.drop n⟩)
      | .ok (kind, n) =>
        (.token ⟨kind, String.ofList (c :: rest.take n), column⟩, ⟨column + 1 + n, rest.drop n⟩)

/-- A request for the next token: where it was made, what it brought into sight, and where the text
goes on. -/
structure Request where
  place : Cursor
  sight : Sight
  after : Cursor

def Cursor.request (place : Cursor) : Request :=
  ⟨place, (next place.column place.left).1, (next place.column place.left).2⟩

/-- The tokens from the one in sight on. -/
def Sight.tokens (sight : Sight) (after : Cursor) : Tokens :=
  match sight with
  | token t => (scan after.column after.left).cons t
  | ending e => ⟨[], e⟩

/-- Asking for tokens one at a time gives those that the text is taken apart into. -/
theorem next_tokens (column : Nat) (cs : List Char) :
    (next column cs).1.tokens (next column cs).2 = scan column cs := by
  induction cs generalizing column with
  | nil => exact (scan_nil column).symm
  | cons c rest ih =>
    by_cases hc : isBlank c
    · rw [next, if_pos hc, scan_blank hc]
      exact ih (column + 1)
    · have hc : isBlank c = false := by simpa using hc
      have hnot : ¬ isBlank c = true := by simp [hc]
      cases hm : munch c rest with
      | error cause =>
        rw [scan_fault hc hm]
        simp only [next, if_neg hnot, hm]
        rfl
      | ok p =>
        rw [scan_token hc hm]
        simp only [next, if_neg hnot, hm]
        rfl

theorem Cursor.request_tokens (place : Cursor) :
    place.request.sight.tokens place.request.after = scan place.column place.left :=
  next_tokens place.column place.left

/-- The text has ended. -/
def Sight.IsEnd : Sight → Prop
  | ending (.endOfText _) => True
  | _ => False

/-- The characters that a request passes. -/
def Request.Passes (r : Request) (passed : List Char) : Prop :=
  r.place.left = passed ++ r.after.left

theorem next_passes (column : Nat) (cs : List Char) : ∃ passed,
    cs = passed ++ (next column cs).2.left ∧ ((next column cs).1.IsEnd ∨ passed ≠ []) := by
  induction cs generalizing column with
  | nil => exact ⟨[], rfl, .inl trivial⟩
  | cons c rest ih =>
    by_cases hc : isBlank c
    · obtain ⟨passed, hpassed, hne⟩ := ih (column + 1)
      rw [next, if_pos hc]
      exact ⟨c :: passed, congrArg (c :: ·) hpassed, .inr (List.cons_ne_nil _ _)⟩
    · have hdrop : ∀ n, c :: rest = (c :: rest.take n) ++ rest.drop n := fun n => by
        rw [List.cons_append, List.take_append_drop]
      cases hm : munch c rest with
      | error cause =>
        simp only [next, if_neg hc, hm]
        exact ⟨_, hdrop _, .inr (List.cons_ne_nil _ _)⟩
      | ok p =>
        simp only [next, if_neg hc, hm]
        exact ⟨_, hdrop _, .inr (List.cons_ne_nil _ _)⟩

theorem Cursor.request_passes (place : Cursor) : ∃ passed,
    place.request.Passes passed ∧ (place.request.sight.IsEnd ∨ passed ≠ []) :=
  next_passes place.column place.left

/-- The requests for the tokens of a text, the latest first: the first is made at the beginning,
each other where the one before has ended, and none after the ending has come into sight. -/
inductive Requests (source : List Char) : List Request → Prop
  | none : Requests source []
  | first : Requests source [Cursor.request ⟨1, source⟩]
  | again {r : Request} {log : List Request} {t : Token} (h : Requests source (r :: log))
      (ht : r.sight = .token t) : Requests source (r.after.request :: r :: log)

namespace Requests

variable {source : List Char} {r : Request} {log : List Request}

/-- Every request except the latest brought a token. -/
theorem exists_token (h : Requests source log) : ∀ r ∈ log.tail, ∃ t, r.sight = .token t := by
  induction h with
  | none | first => exact nofun
  | again h ht ih => exact List.forall_mem_cons.mpr ⟨⟨_, ht⟩, ih⟩

/-- Every request passes a character, unless the text has ended. -/
theorem exists_passes (h : Requests source log) :
    ∀ r ∈ log, ∃ passed, r.Passes passed ∧ (r.sight.IsEnd ∨ passed ≠ []) := by
  induction h with
  | none => exact nofun
  | first => exact List.forall_mem_singleton.mpr (Cursor.request_passes _)
  | again h ht ih => exact List.forall_mem_cons.mpr ⟨Cursor.request_passes _, ih⟩

/-- A request leaves no more characters than there were, and fewer if it brings a token. -/
theorem length_after (place : Cursor) :
    place.request.after.left.length ≤ place.left.length ∧
      ∀ t, place.request.sight = .token t →
        place.request.after.left.length < place.left.length := by
  obtain ⟨passed, hpassed, hne⟩ := place.request_passes
  have hlen : place.left.length = passed.length + place.request.after.left.length := by
    rw [← List.length_append, ← hpassed]
    rfl
  refine ⟨by omega, fun t ht => ?_⟩
  rcases hne with hend | hne
  · rw [ht] at hend
    exact hend.elim
  · have hpos := List.length_pos_iff.mpr hne
    omega

/-- The requests before the latest, and it too if it brought a token, are no more than the
characters passed. -/
theorem length_add_le (h : Requests source (r :: log)) :
    log.length + r.after.left.length ≤ source.length ∧
      ∀ t, r.sight = .token t → log.length + 1 + r.after.left.length ≤ source.length := by
  generalize hlog : r :: log = requests at h
  induction h generalizing r log with
  | none => cases hlog
  | first =>
    cases hlog
    obtain ⟨hle, hlt⟩ := length_after ⟨1, source⟩
    rw [List.length_nil, Nat.zero_add, Nat.zero_add, Nat.add_comm]
    exact ⟨hle, hlt⟩
  | again h ht ih =>
    cases hlog
    have hbefore := (ih rfl).2 _ ht
    rename_i r log t
    obtain ⟨hle, hlt⟩ := length_after r.after
    rw [List.length_cons]
    exact ⟨by omega, fun t ht => by have := hlt t ht; omega⟩

/-- A text allows one request more than it has characters. -/
theorem length_le (h : Requests source log) : log.length ≤ source.length + 1 := by
  cases log with
  | nil => exact Nat.zero_le _
  | cons r log =>
    have hle := h.length_add_le.1
    rw [List.length_cons]
    omega

end Requests
end QuantumOps.Expression
