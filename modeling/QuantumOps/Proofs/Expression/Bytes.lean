import QuantumOps.Expression.Value
import QuantumOps.Proofs.Expression.Tiling

/-! Texts as they are stored, byte by byte. Each byte is read as the character with its number; all
bytes of a character beyond ASCII lie beyond it too, and nothing beyond ASCII is part of a token, so
that a text and its bytes are taken apart in the same way. -/
namespace QuantumOps.Expression

/-- The bytes as characters. -/
def bytewise (bytes : List UInt8) : List Char := bytes.map Char.ofUInt8

section
variable {c d d' : Char} {us vs vs' cs : List Char}

theorem divides_of_le (h : 128 ≤ d.toNat) : Divides d := by
  have hne : ∀ {c : Char}, c.toNat < 128 → d ≠ c := by
    rintro c hc rfl
    omega
  refine ⟨?_, hne (by decide), ⟨hne (by decide), hne (by decide)⟩, hne (by decide)⟩
  rw [Bool.eq_false_iff]
  intro hname
  have hlt := isNameChar_lt hname
  omega

theorem isBlank_of_le (h : 128 ≤ d.toNat) : isBlank d = false := by
  rw [Bool.eq_false_iff]
  intro hblank
  have hlt := isBlank_lt hblank
  omega

theorem munch_of_le (h : 128 ≤ d.toNat) (cs : List Char) :
    munch d cs = .error .unexpectedCharacter := by
  have hdivides := divides_of_le h
  have hsymbol : d ∉ symbols := by
    intro hd
    have hlt : ∀ c ∈ symbols, c.toNat < 128 := by simp [symbols]
    exact absurd (hlt d hd) (Nat.not_lt.mpr h)
  have hname : isNameStart d = false := by
    rw [Bool.eq_false_iff]
    intro hname
    have hfalse := hdivides.not_isNameChar
    rw [isNameChar_of_isNameStart hname] at hfalse
    cases hfalse
  rw [munch_of_not_mem_symbols hsymbol, if_neg (by simp [hdivides.not_isDigit, hdivides.ne_point]),
    if_neg (by simp [hname])]

/-- Beyond ASCII it makes no difference how a text goes on. -/
theorem scan_of_le (hd : 128 ≤ d.toNat) (hd' : 128 ≤ d'.toNat) (column : Nat) (us : List Char) :
    scan column (us ++ d :: vs) = scan column (us ++ d' :: vs') := by
  induction hn : us.length using Nat.strongRecOn generalizing us column with
  | ind n ih =>
    subst hn
    cases us with
    | nil =>
      rw [List.nil_append, List.nil_append, scan_fault (isBlank_of_le hd) (munch_of_le hd vs),
        scan_fault (isBlank_of_le hd') (munch_of_le hd' vs')]
    | cons c us =>
      rw [List.cons_append, List.cons_append]
      by_cases hc : isBlank c
      · rw [scan_blank hc, scan_blank hc]
        exact ih us.length (Nat.lt_succ_self _) (column + 1) us rfl
      · have hc : isBlank c = false := by simpa using hc
        have hm : munch c (us ++ d :: vs) = munch c us := munch_delimited c (divides_of_le hd)
        have hm' : munch c (us ++ d' :: vs') = munch c us := munch_delimited c (divides_of_le hd')
        cases hmunch : munch c us with
        | error cause =>
          rw [scan_fault hc (hm.trans hmunch), scan_fault hc (hm'.trans hmunch)]
        | ok p =>
          obtain ⟨kind, n⟩ := p
          have hle := munch_le hmunch
          rw [scan_token hc (hm.trans hmunch), scan_token hc (hm'.trans hmunch),
            List.drop_append_of_le_length hle, List.drop_append_of_le_length hle,
            List.take_append_of_le_length hle, List.take_append_of_le_length hle]
          have hlt : (us.drop n).length < (c :: us).length := by
            rw [List.length_drop, List.length_cons]
            omega
          rw [ih _ hlt (column + 1 + n) (us.drop n) rfl]

theorem toNat_ofUInt8 (b : UInt8) : (Char.ofUInt8 b).toNat = b.toNat :=
  UInt8.toNat_toUInt32 b

theorem bytewise_ascii (h : c.toNat < 128) : bytewise (String.utf8EncodeChar c) = [c] := by
  have hc : c.val.toNat ≤ 127 := Nat.le_of_lt_succ h
  have hnat : (Char.ofUInt8 (UInt8.ofNat c.val.toNat)).toNat = c.toNat := by
    rw [toNat_ofUInt8, UInt8.toNat_ofNat']
    exact Nat.mod_eq_of_lt (by omega)
  rw [String.utf8EncodeChar, if_pos hc]
  exact congrArg (fun c => [c]) (Char.toNat_inj.mp hnat)

/-- The bytes of a character beyond ASCII begin beyond ASCII. -/
theorem bytewise_of_le (h : 128 ≤ c.toNat) :
    ∃ d ds, bytewise (String.utf8EncodeChar c) = d :: ds ∧ 128 ≤ d.toNat := by
  have hc : ¬ c.val.toNat ≤ 127 := by
    have hnat : c.val.toNat = c.toNat := rfl
    omega
  have hhead : ∀ {n : Nat}, 128 ≤ n → n < 256 →
      128 ≤ (Char.ofUInt8 (UInt8.ofNat n)).toNat := by
    intro n hle hlt
    rw [toNat_ofUInt8, UInt8.toNat_ofNat', Nat.mod_eq_of_lt hlt]
    exact hle
  rw [String.utf8EncodeChar, if_neg hc]
  split_ifs
  · exact ⟨_, _, rfl, hhead (by omega) (by omega)⟩
  · exact ⟨_, _, rfl, hhead (by omega) (by omega)⟩
  · exact ⟨_, _, rfl, hhead (by omega) (by omega)⟩

/-- The bytes of a text are its characters up to the first beyond ASCII. -/
theorem bytewise_cases (cs : List Char) : bytewise (cs.flatMap String.utf8EncodeChar) = cs ∨
    ∃ us d vs d' vs', cs = us ++ d :: vs ∧ 128 ≤ d.toNat ∧
      bytewise (cs.flatMap String.utf8EncodeChar) = us ++ d' :: vs' ∧ 128 ≤ d'.toNat := by
  induction cs with
  | nil => exact .inl rfl
  | cons c cs ih =>
    have hcons : bytewise ((c :: cs).flatMap String.utf8EncodeChar) =
        bytewise (String.utf8EncodeChar c) ++ bytewise (cs.flatMap String.utf8EncodeChar) :=
      List.map_append
    rw [hcons]
    rcases Nat.lt_or_ge c.toNat 128 with hc | hc
    · rw [bytewise_ascii hc]
      rcases ih with ih | ⟨us, d, vs, d', vs', hcs, hd, hbytes, hd'⟩
      · exact .inl (congrArg (c :: ·) ih)
      · exact .inr ⟨c :: us, d, vs, d', vs', congrArg (c :: ·) hcs, hd,
          congrArg (c :: ·) hbytes, hd'⟩
    · obtain ⟨d', ds, hbytes, hd'⟩ := bytewise_of_le hc
      rw [hbytes]
      exact .inr ⟨[], c, cs, d', _, rfl, hc, rfl, hd'⟩

theorem scan_bytewise (column : Nat) (cs : List Char) :
    scan column (bytewise (cs.flatMap String.utf8EncodeChar)) = scan column cs := by
  rcases bytewise_cases cs with h | ⟨us, d, vs, d', vs', hcs, hd, hbytes, hd'⟩
  · rw [h]
  · rw [hbytes, hcs]
    exact scan_of_le hd' hd column us

end

/-- The bytes of a text, each read as a character, are taken apart as the text is. -/
theorem tokenize_bytewise (s : String) :
    tokenize (String.ofList (bytewise s.toUTF8.data.toList)) = tokenize s := by
  have hbytes : s.toUTF8.data.toList = s.toList.flatMap String.utf8EncodeChar := by
    conv_lhs => rw [← String.ofList_toList (s := s)]
    rw [String.toUTF8_eq_toByteArray, String.toByteArray_ofList, List.utf8Encode,
      List.data_toByteArray]
  rw [tokenize, String.toList_ofList, hbytes, scan_bytewise]
  rfl

end QuantumOps.Expression
