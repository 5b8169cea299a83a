import QuantumOps.Proofs.Expression.Munch

/-! A text is covered by its tokens and the blanks between them, from its first character to its end
or to the place where it is at fault. Places are counted from zero, columns from one. -/
namespace QuantumOps.Expression

/-- From the place on, the text is made of the tokens and blanks, up to the ending. -/
inductive Tiles (s : List Char) : Nat → List Token → Ending → Prop
  | ends : Tiles s s.length [] (.endOfText (s.length + 1))
  | blank {i : Nat} {c : Char} {ts : List Token} {ending : Ending} (hc : s[i]? = some c)
      (hb : isBlank c) (h : Tiles s (i + 1) ts ending) : Tiles s i ts ending
  | token {i : Nat} {kind : Token.Kind} {lexeme : List Char} {ts : List Token} {ending : Ending}
      (hl : Longest kind lexeme (s.drop i)) (hn : ¬ LacksExponent (s.drop i))
      (h : Tiles s (i + lexeme.length) ts ending) :
      Tiles s i (⟨kind, String.ofList lexeme, i + 1⟩ :: ts) ending
  | fault {i : Nat} {c : Char} {cause : LexicalFault} (hc : s[i]? = some c)
      (hb : isBlank c = false) (hf : Faulty cause (s.drop i)) :
      Tiles s i [] (.fault cause (i + 1))

theorem scan_tiles (s : List Char) (i : Nat) (hi : i ≤ s.length) :
    Tiles s i (scan (i + 1) (s.drop i)).tokens (scan (i + 1) (s.drop i)).ending := by
  induction hn : s.length - i using Nat.strongRecOn generalizing i with
  | ind n ih =>
    cases hs : s.drop i with
    | nil =>
      have hlen : i = s.length := Nat.le_antisymm hi (List.drop_eq_nil_iff.mp hs)
      subst hlen
      rw [scan_nil]
      exact .ends
    | cons c cs =>
      have hlt : i < s.length := by
        have hlen := congrArg List.length hs
        rw [List.length_drop, List.length_cons] at hlen
        omega
      have hc : s[i]? = some c := by
        rw [← List.head?_drop, hs]
        rfl
      have hrest : ∀ k, s.drop (i + 1 + k) = cs.drop k := by
        intro k
        rw [← List.drop_drop, ← List.drop_drop, List.drop_one, hs, List.tail_cons]
      by_cases hb : isBlank c
      · have h := ih (s.length - (i + 1)) (by omega) (i + 1) hlt rfl
        rw [scan_blank hb]
        have hdrop := hrest 0
        rw [Nat.add_zero, List.drop_zero] at hdrop
        rw [hdrop] at h
        exact .blank hc hb h
      · have hb : isBlank c = false := by simpa using hb
        cases hm : munch c cs with
        | error cause =>
          rw [scan_fault hb hm]
          exact .fault hc hb (hs ▸ faulty_of_munch hm)
        | ok p =>
          obtain ⟨kind, k⟩ := p
          have hk := munch_le hm
          have hlen := congrArg List.length hs
          rw [List.length_drop, List.length_cons] at hlen
          have h := ih (s.length - (i + 1 + k)) (by omega) (i + 1 + k) (by omega) rfl
          have hcolumn : i + 1 + k + 1 = i + 1 + 1 + k := by omega
          rw [hrest k, hcolumn] at h
          have hend : i + (c :: cs.take k).length = i + 1 + k := by
            rw [List.length_cons, List.length_take, Nat.min_eq_left hk]
            omega
          rw [scan_token hb hm]
          refine .token ?_ ?_ (hend ▸ h)
          · exact hs ▸ longest_of_munch hm
          · intro hlacks
            rw [hs] at hlacks
            rw [hlacks.munch_eq] at hm
            cases hm

theorem tokenize_tiles (s : String) :
    Tiles s.toList 0 (tokenize s).tokens (tokenize s).ending :=
  scan_tiles s.toList 0 (Nat.zero_le _)

/-- Nothing but blanks stands from one place up to another. -/
def Blanks (s : List Char) (i j : Nat) : Prop :=
  i ≤ j ∧ ∀ k, i ≤ k → k < j → ∃ c, s[k]? = some c ∧ isBlank c

/-- The place right after the tokens, which is the given one if there are none. -/
def stop (i : Nat) : List Token → Nat
  | [] => i
  | t :: ts => stop (t.column - 1 + t.lexeme.length) ts

/-- The token stands after the place and blanks alone, is the longest one there and lacks no part. -/
structure Token.Placed (s : List Char) (i : Nat) (t : Token) : Prop where
  pos : 0 < t.column
  blanks : Blanks s i (t.column - 1)
  longest : Longest t.kind t.lexeme.toList (s.drop (t.column - 1))
  complete : ¬ LacksExponent (s.drop (t.column - 1))

/-- After the place and blanks alone the text ends, or is at fault for the cause. -/
def Ending.Placed (s : List Char) (i : Nat) : Ending → Prop
  | endOfText column => column = s.length + 1 ∧ Blanks s i s.length
  | fault cause column => 0 < column ∧ Blanks s i (column - 1) ∧
      (∃ c, s[column - 1]? = some c ∧ isBlank c = false) ∧ Faulty cause (s.drop (column - 1))

section
variable {s : List Char} {i : Nat} {ts : List Token} {ending : Ending}

theorem Blanks.refl (s : List Char) (i : Nat) : Blanks s i i :=
  ⟨Nat.le_refl i, fun _ h h' => absurd h' (Nat.not_lt.mpr h)⟩

theorem Blanks.cons {c : Char} {j : Nat} (hc : s[i]? = some c) (hb : isBlank c)
    (h : Blanks s (i + 1) j) : Blanks s i j := by
  refine ⟨Nat.le_of_succ_le h.1, fun k hk hj => ?_⟩
  rcases Nat.eq_or_lt_of_le hk with rfl | hk
  · exact ⟨c, hc, hb⟩
  · exact h.2 k hk hj

theorem stop_cons (i j : Nat) (kind : Token.Kind) (lexeme : List Char) (ts : List Token) :
    stop i (⟨kind, String.ofList lexeme, j + 1⟩ :: ts) = stop (j + lexeme.length) ts := by
  rw [stop, String.length_ofList, Nat.add_sub_cancel]

theorem Tiles.token_placed (h : Tiles s i ts ending) : ∀ before t after,
    ts = before ++ t :: after → t.Placed s (stop i before) := by
  induction h with
  | ends | fault =>
    intro before t after hts
    simp at hts
  | blank hc hb h ih =>
    intro before t after hts
    have hp := ih before t after hts
    cases before with
    | nil => exact ⟨hp.pos, .cons hc hb hp.blanks, hp.longest, hp.complete⟩
    | cons b before => exact hp
  | token hl hn h ih =>
    intro before t after hts
    cases before with
    | nil =>
      cases hts
      refine ⟨Nat.succ_pos _, .refl s _, ?_, hn⟩
      rw [String.toList_ofList]
      exact hl
    | cons b before =>
      rw [List.cons_append, List.cons.injEq] at hts
      obtain ⟨rfl, rfl⟩ := hts
      rw [stop_cons]
      exact ih before t after rfl

theorem Tiles.ending_placed (h : Tiles s i ts ending) : ending.Placed s (stop i ts) := by
  induction h with
  | ends => exact ⟨rfl, .refl s _⟩
  | fault hc hb hf => exact ⟨Nat.succ_pos _, .refl s _, ⟨_, hc, hb⟩, hf⟩
  | @blank i c ts ending hc hb h ih =>
    cases ts with
    | cons t ts => exact ih
    | nil =>
      cases ending with
      | endOfText column => exact ⟨ih.1, .cons hc hb ih.2⟩
      | fault cause column => exact ⟨ih.1, .cons hc hb ih.2.1, ih.2.2⟩
  | token hl hn h ih =>
    rw [stop_cons]
    exact ih

theorem isBlank_lt {c : Char} (h : isBlank c) : c.toNat < 128 := by
  simp only [isBlank, Bool.or_eq_true, Bool.and_eq_true, decide_eq_true_eq] at h
  rcases h with rfl | ⟨-, h⟩
  · decide
  · omega

/-- Up to its ending a text is written in ASCII. -/
theorem Tiles.lt (h : Tiles s i ts ending) : ∀ k c, i ≤ k → k + 1 < ending.column →
    s[k]? = some c → c.toNat < 128 := by
  induction h with
  | ends =>
    intro k c hi hk
    have hk : k + 1 < s.length + 1 := hk
    omega
  | @fault i =>
    intro k c hi hk
    have hk : k + 1 < i + 1 := hk
    omega
  | blank hc hb h ih =>
    intro k c hi hk hkc
    rcases Nat.eq_or_lt_of_le hi with rfl | hi
    · rw [hc] at hkc
      cases hkc
      exact isBlank_lt hb
    · exact ih k c hi hk hkc
  | @token i kind lexeme ts ending hl hn h ih =>
    intro k c hi hk hkc
    by_cases hlt : k < i + lexeme.length
    · obtain ⟨after, hafter⟩ := hl.starts
      have hget : (s.drop i)[k - i]? = some c := by
        rw [List.getElem?_drop, Nat.add_sub_cancel' hi, hkc]
      rw [← hafter, List.getElem?_append_left (by omega)] at hget
      exact hl.isLexeme.lt c (List.mem_of_getElem? hget)
    · exact ih k c (Nat.not_lt.mp hlt) hk hkc

end

/-- A text in ASCII has as many bytes as characters. -/
theorem utf8ByteSize_of_lt : ∀ {cs : List Char}, (∀ c ∈ cs, c.toNat < 128) →
    (String.ofList cs).utf8ByteSize = cs.length
  | [], _ => rfl
  | c :: cs, h => by
    have hc : c.utf8Size = 1 := by
      rw [Char.utf8Size_eq_one_iff, UInt32.le_iff_toNat_le]
      exact Nat.le_of_lt_succ (h c (.head _))
    have hcons : String.ofList (c :: cs) = String.singleton c ++ String.ofList cs := by
      rw [String.singleton_eq_ofList, ← String.ofList_append]
      rfl
    rw [hcons, String.utf8ByteSize_append, String.utf8ByteSize_singleton, hc,
      utf8ByteSize_of_lt fun d hd => h d (.tail _ hd), List.length_cons, Nat.add_comm]

end QuantumOps.Expression
