/-! Reading a text one character after another, with a state. Texts that lead from one state to
another are told apart from what stands behind them, if it begins with a character that cannot be
read there. -/
namespace QuantumOps.Text

/-- How a state changes with each character, if the character can be read in it. -/
abbrev Scanner (σ : Type) := σ → Char → Option σ

namespace Scanner

variable {σ : Type} (S : Scanner σ)

/-- The state after the characters. -/
def run (s : σ) (cs : List Char) : Option σ := cs.foldlM S s

/-- The text can be read in the one state and leads to the other. -/
def Leads (s : σ) (text : String) (t : σ) : Prop := S.run s text.toList = some t

/-- The text cannot be begun in the state, unless it is empty. -/
def Stops (s : σ) (text : String) : Prop := ∀ c ∈ text.toList.head?, S s c = none

variable {S} {s t p : σ} {u v r r' : String} {cs ds : List Char}

theorem run_append : S.run s (cs ++ ds) = (S.run s cs).bind fun t => S.run t ds :=
  List.foldlM_append

theorem run_of_forall (h : ∀ c ∈ cs, S s c = some s) : S.run s cs = some s := by
  induction cs with
  | nil => rfl
  | cons c cs ih =>
    obtain ⟨hc, hcs⟩ := List.forall_mem_cons.mp h
    rw [run, List.foldlM_cons, hc]
    exact ih hcs

theorem Leads.append (hu : S.Leads s u t) (hv : S.Leads t v p) : S.Leads s (u ++ v) p := by
  rw [Leads, String.toList_append, run_append, hu]
  exact hv

theorem Stops.append (h : S.Stops s u) (hne : u ≠ "") : S.Stops s (u ++ v) := by
  intro c hc
  cases hu : u.toList with
  | nil => exact absurd (String.toList_eq_nil_iff.mp hu) hne
  | cons d ds =>
    rw [String.toList_append, hu] at hc
    exact h c (by rw [hu]; exact hc)

/-- What stands behind the shorter of two texts is not read on in the longer. -/
theorem eq_nil_of_prefix (hu : S.Leads s u t) (hv : S.Leads s v t) (hr : S.Stops t r)
    (hvd : v.toList = u.toList ++ ds) (hrd : ds <+: r.toList) : ds = [] := by
  cases ds with
  | nil => rfl
  | cons c ds =>
    obtain ⟨rest, hrest⟩ := hrd
    have hc : S t c = none := hr c (by rw [← hrest]; rfl)
    have hrun : S.run s v.toList = none := by
      rw [hvd, run_append, hu, Option.bind_some, run, List.foldlM_cons, hc]
      rfl
    rw [hv] at hrun
    cases hrun

/-- Texts that lead to one state, with something behind them that cannot be read on there, are told
apart. -/
theorem Leads.append_inj (hu : S.Leads s u t) (hv : S.Leads s v t) (hr : S.Stops t r)
    (hr' : S.Stops t r') (h : u ++ r = v ++ r') : u = v ∧ r = r' := by
  have hchars : u.toList ++ r.toList = v.toList ++ r'.toList := by
    rw [← String.toList_append, ← String.toList_append, h]
  have huv : u = v := by
    rcases List.append_eq_append_iff.mp hchars with ⟨ds, hvd, hrd⟩ | ⟨ds, hud, hrd⟩
    · have hnil := eq_nil_of_prefix hu hv hr hvd ⟨_, hrd.symm⟩
      rw [hnil, List.append_nil] at hvd
      exact (String.toList_inj.mp hvd).symm
    · have hnil := eq_nil_of_prefix hv hu hr' hud ⟨_, hrd.symm⟩
      rw [hnil, List.append_nil] at hud
      exact String.toList_inj.mp hud
  subst huv
  exact ⟨rfl, (String.append_right_inj u).mp h⟩

end Scanner

end QuantumOps.Text
