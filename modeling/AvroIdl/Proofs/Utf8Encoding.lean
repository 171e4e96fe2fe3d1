import AvroIdl.Text.Utf8

/-!
# Valid texts are encoded characters

The encoder writes every character as UTF-8 has it, and the machine that judges a text accepts
exactly the sequences of encoded characters. Such texts can be joined, and cut at an ASCII byte.
-/
namespace AvroIdl.Utf8

/-- A sequence of encoded characters. -/
def IsEncoded (t : Text) : Prop := ∃ cs : List Char, t = cs.flatMap String.utf8EncodeChar

/-! ### Encoding a character -/

section Encoding

variable {c : Char}

theorem utf8EncodeChar_one (h : c.toNat < 0x80) :
    String.utf8EncodeChar c = [UInt8.ofNat c.toNat] := by
  unfold String.utf8EncodeChar
  exact if_pos (Nat.le_of_lt_succ h)

theorem utf8EncodeChar_two (hlow : 0x80 ≤ c.toNat) (h : c.toNat < 0x800) :
    String.utf8EncodeChar c =
      [UInt8.ofNat (c.toNat / 64 % 32 + 0xC0), UInt8.ofNat (c.toNat % 64 + 0x80)] := by
  unfold String.utf8EncodeChar
  exact (if_neg (Nat.not_le.mpr hlow)).trans (if_pos (Nat.le_of_lt_succ h))

theorem utf8EncodeChar_three (hlow : 0x800 ≤ c.toNat) (h : c.toNat < 0x10000) :
    String.utf8EncodeChar c =
      [UInt8.ofNat (c.toNat / 4096 % 16 + 0xE0), UInt8.ofNat (c.toNat / 64 % 64 + 0x80),
        UInt8.ofNat (c.toNat % 64 + 0x80)] := by
  unfold String.utf8EncodeChar
  exact (if_neg (Nat.not_le.mpr (Nat.lt_of_lt_of_le (by decide) hlow))).trans
    ((if_neg (Nat.not_le.mpr hlow)).trans (if_pos (Nat.le_of_lt_succ h)))

theorem utf8EncodeChar_four (hlow : 0x10000 ≤ c.toNat) :
    String.utf8EncodeChar c =
      [UInt8.ofNat (c.toNat / 262144 % 8 + 0xF0), UInt8.ofNat (c.toNat / 4096 % 64 + 0x80),
        UInt8.ofNat (c.toNat / 64 % 64 + 0x80), UInt8.ofNat (c.toNat % 64 + 0x80)] := by
  unfold String.utf8EncodeChar
  exact (if_neg (Nat.not_le.mpr (Nat.lt_of_lt_of_le (by decide) hlow))).trans
    ((if_neg (Nat.not_le.mpr (Nat.lt_of_lt_of_le (by decide) hlow))).trans
      (if_neg (Nat.not_le.mpr hlow)))

theorem toNat_lt (c : Char) : c.toNat < 0x110000 := by
  obtain h | h := c.valid
  · exact Nat.lt_trans h (by decide)
  · exact h.2

/-- A character is encoded in one to four bytes. -/
theorem size_cases (c : Char) :
    c.toNat < 0x80 ∨ (0x80 ≤ c.toNat ∧ c.toNat < 0x800) ∨ (0x800 ≤ c.toNat ∧ c.toNat < 0x10000) ∨
      (0x10000 ≤ c.toNat ∧ c.toNat < 0x110000) := by
  have hmax := toNat_lt c
  omega

/-- Characters are encoded as the library has it. -/
theorem encode_toNat (c : Char) : encode c.toNat = String.utf8EncodeChar c := by
  simp only [encode, Nat.shiftRight_eq_div_pow, Nat.toUInt8_eq, Nat.add_comm 0x80, Nat.reducePow,
    Nat.div_one]
  obtain h | ⟨hlow, h⟩ | ⟨hlow, h⟩ | ⟨hlow, h⟩ := size_cases c
  · rw [if_pos h, utf8EncodeChar_one h]
  · have hlead : c.toNat / 64 < 32 := by omega
    have hmark : 0xC0 ||| c.toNat / 64 = c.toNat / 64 + 0xC0 := by
      rw [Nat.add_comm]
      exact (Nat.two_pow_add_eq_or_of_lt (i := 5) hlead 6).symm
    rw [if_neg (by omega), if_pos h, utf8EncodeChar_two hlow h, hmark, Nat.mod_eq_of_lt hlead]
  · have hlead : c.toNat / 4096 < 16 := by omega
    have hmark : 0xE0 ||| c.toNat / 4096 = c.toNat / 4096 + 0xE0 := by
      rw [Nat.add_comm]
      exact (Nat.two_pow_add_eq_or_of_lt (i := 4) hlead 14).symm
    rw [if_neg (by omega), if_neg (by omega), if_pos h, utf8EncodeChar_three hlow h, hmark,
      Nat.mod_eq_of_lt hlead]
  · have hlead : c.toNat / 262144 < 8 := by omega
    have hmark : 0xF0 ||| c.toNat / 262144 = c.toNat / 262144 + 0xF0 := by
      rw [Nat.add_comm]
      exact (Nat.two_pow_add_eq_or_of_lt (i := 3) hlead 30).symm
    rw [if_neg (by omega), if_neg (by omega), if_neg (by omega), utf8EncodeChar_four hlow, hmark,
      Nat.mod_eq_of_lt hlead]

/-! Bytes within the bounds of the grammar encode a character. -/

theorem exists_char {n : Nat} (h : n.isValidChar) : ∃ c : Char, c.toNat = n :=
  ⟨Char.ofNatAux n h, rfl⟩

theorem ofNat_eq {n : Nat} {b : UInt8} (h : n = b.toNat) : UInt8.ofNat n = b := by
  rw [h, UInt8.ofNat_toNat]

variable {a b d e : UInt8}

/-- The continuation bytes. -/
def InTail (b : UInt8) : Prop := 0x80 ≤ b.toNat ∧ b.toNat ≤ 0xBF

theorem exists_char_one (ha : a.toNat < 0x80) : ∃ c, String.utf8EncodeChar c = [a] := by
  obtain ⟨c, hc⟩ := exists_char (n := a.toNat) (.inl (by omega))
  exact ⟨c, by rw [utf8EncodeChar_one (by omega), ofNat_eq hc]⟩

theorem exists_char_two (ha : 0xC2 ≤ a.toNat ∧ a.toNat ≤ 0xDF) (hb : InTail b) :
    ∃ c, String.utf8EncodeChar c = [a, b] := by
  unfold InTail at hb
  obtain ⟨c, hc⟩ := exists_char (n := (a.toNat - 0xC0) * 64 + (b.toNat - 0x80)) (.inl (by omega))
  have h₁ : UInt8.ofNat (c.toNat / 64 % 32 + 0xC0) = a := ofNat_eq (by omega)
  have h₂ : UInt8.ofNat (c.toNat % 64 + 0x80) = b := ofNat_eq (by omega)
  exact ⟨c, by rw [utf8EncodeChar_two (by omega) (by omega), h₁, h₂]⟩

theorem exists_char_three (ha : 0xE0 ≤ a.toNat ∧ a.toNat ≤ 0xEF) (hb : InTail b)
    (hlow : a.toNat = 0xE0 → 0xA0 ≤ b.toNat) (hhigh : a.toNat = 0xED → b.toNat ≤ 0x9F)
    (hd : InTail d) : ∃ c, String.utf8EncodeChar c = [a, b, d] := by
  unfold InTail at hb hd
  obtain ⟨c, hc⟩ := exists_char
    (n := (a.toNat - 0xE0) * 4096 + (b.toNat - 0x80) * 64 + (d.toNat - 0x80))
    (by unfold Nat.isValidChar; omega)
  have h₁ : UInt8.ofNat (c.toNat / 4096 % 16 + 0xE0) = a := ofNat_eq (by omega)
  have h₂ : UInt8.ofNat (c.toNat / 64 % 64 + 0x80) = b := ofNat_eq (by omega)
  have h₃ : UInt8.ofNat (c.toNat % 64 + 0x80) = d := ofNat_eq (by omega)
  exact ⟨c, by rw [utf8EncodeChar_three (by omega) (by omega), h₁, h₂, h₃]⟩

theorem exists_char_four (ha : 0xF0 ≤ a.toNat ∧ a.toNat ≤ 0xF4) (hb : InTail b)
    (hlow : a.toNat = 0xF0 → 0x90 ≤ b.toNat) (hhigh : a.toNat = 0xF4 → b.toNat ≤ 0x8F)
    (hd : InTail d) (he : InTail e) : ∃ c, String.utf8EncodeChar c = [a, b, d, e] := by
  unfold InTail at hb hd he
  obtain ⟨c, hc⟩ := exists_char
    (n := (a.toNat - 0xF0) * 262144 + (b.toNat - 0x80) * 4096 + (d.toNat - 0x80) * 64 +
      (e.toNat - 0x80))
    (.inr (by omega))
  have h₁ : UInt8.ofNat (c.toNat / 262144 % 8 + 0xF0) = a := ofNat_eq (by omega)
  have h₂ : UInt8.ofNat (c.toNat / 4096 % 64 + 0x80) = b := ofNat_eq (by omega)
  have h₃ : UInt8.ofNat (c.toNat / 64 % 64 + 0x80) = d := ofNat_eq (by omega)
  have h₄ : UInt8.ofNat (c.toNat % 64 + 0x80) = e := ofNat_eq (by omega)
  exact ⟨c, by rw [utf8EncodeChar_four (by omega), h₁, h₂, h₃, h₄]⟩

end Encoding

/-! ### The machine on one character -/

section Machine

variable {s : State} {a b : UInt8} {t : Text}

theorem first_one (h : b.toNat < 0x80) : State.first b = some .start := by
  rw [State.first, if_pos (UInt8.le_iff_toNat_le.mpr (Nat.le_of_lt_succ h))]

theorem first_two (hlow : 0xC2 ≤ b.toNat) (hhigh : b.toNat ≤ 0xDF) :
    State.first b = some ⟨1, 0x80, 0xBF⟩ := by
  simp only [State.first, UInt8.le_iff_toNat_le, Bool.and_eq_true, decide_eq_true_eq,
    UInt8.reduceToNat]
  rw [if_neg (by omega), if_pos ⟨hlow, hhigh⟩]

/-- The second of three bytes is bounded against overlong forms and surrogates. -/
theorem first_three (hlow : 0xE0 ≤ b.toNat) (hhigh : b.toNat ≤ 0xEF) :
    ∃ low high, State.first b = some ⟨2, low, high⟩ ∧
      (b.toNat = 0xE0 ∧ low.toNat = 0xA0 ∨ b.toNat ≠ 0xE0 ∧ low.toNat = 0x80) ∧
      (b.toNat = 0xED ∧ high.toNat = 0x9F ∨ b.toNat ≠ 0xED ∧ high.toNat = 0xBF) := by
  simp only [State.first, UInt8.le_iff_toNat_le, ← UInt8.toNat_inj, Bool.and_eq_true,
    decide_eq_true_eq, beq_iff_eq, UInt8.reduceToNat]
  rw [if_neg (by omega), if_neg (by omega)]
  by_cases h₀ : b.toNat = 0xE0
  · rw [if_pos h₀]
    exact ⟨_, _, rfl, .inl ⟨h₀, rfl⟩, .inr ⟨by omega, rfl⟩⟩
  · by_cases h₁ : b.toNat = 0xED
    · rw [if_neg h₀, if_pos h₁]
      exact ⟨_, _, rfl, .inr ⟨h₀, rfl⟩, .inl ⟨h₁, rfl⟩⟩
    · rw [if_neg h₀, if_neg h₁, if_pos (by omega)]
      exact ⟨_, _, rfl, .inr ⟨h₀, rfl⟩, .inr ⟨h₁, rfl⟩⟩

/-- The second of four bytes is bounded against overlong forms and what is no code point. -/
theorem first_four (hlow : 0xF0 ≤ b.toNat) (hhigh : b.toNat ≤ 0xF4) :
    ∃ low high, State.first b = some ⟨3, low, high⟩ ∧
      (b.toNat = 0xF0 ∧ low.toNat = 0x90 ∨ b.toNat ≠ 0xF0 ∧ low.toNat = 0x80) ∧
      (b.toNat = 0xF4 ∧ high.toNat = 0x8F ∨ b.toNat ≠ 0xF4 ∧ high.toNat = 0xBF) := by
  simp only [State.first, UInt8.le_iff_toNat_le, ← UInt8.toNat_inj, Bool.and_eq_true,
    decide_eq_true_eq, beq_iff_eq, UInt8.reduceToNat]
  rw [if_neg (by omega), if_neg (by omega), if_neg (by omega), if_neg (by omega),
    if_neg (by omega)]
  by_cases h₀ : b.toNat = 0xF0
  · rw [if_pos h₀]
    exact ⟨_, _, rfl, .inl ⟨h₀, rfl⟩, .inr ⟨by omega, rfl⟩⟩
  · by_cases h₁ : b.toNat = 0xF4
    · rw [if_neg h₀, if_pos h₁]
      exact ⟨_, _, rfl, .inr ⟨h₀, rfl⟩, .inl ⟨h₁, rfl⟩⟩
    · rw [if_neg h₀, if_neg h₁, if_pos (by omega)]
      exact ⟨_, _, rfl, .inr ⟨h₀, rfl⟩, .inr ⟨h₁, rfl⟩⟩

/-- No other byte starts a character. -/
theorem first_none (h : ¬(b.toNat < 0x80 ∨ (0xC2 ≤ b.toNat ∧ b.toNat ≤ 0xF4))) :
    State.first b = none := by
  simp only [State.first, UInt8.le_iff_toNat_le, ← UInt8.toNat_inj, Bool.and_eq_true,
    decide_eq_true_eq, beq_iff_eq, UInt8.reduceToNat]
  rw [if_neg (by omega), if_neg (by omega), if_neg (by omega), if_neg (by omega),
    if_neg (by omega), if_neg (by omega), if_neg (by omega), if_neg (by omega)]

theorem accepts_of_first (h : State.first b = some s) :
    State.start.accepts (b :: t) = s.accepts t := by
  rw [State.accepts, show State.start.step b = some s from h]

/-- A byte within the bounds brings the character one byte further. -/
theorem accepts_of_bounds {n : Nat} {low high : UInt8} (hlow : low.toNat ≤ b.toNat)
    (hhigh : b.toNat ≤ high.toNat) :
    (⟨n + 1, low, high⟩ : State).accepts (b :: t) = (⟨n, 0x80, 0xBF⟩ : State).accepts t := by
  have hstep : (⟨n + 1, low, high⟩ : State).step b = some ⟨n, 0x80, 0xBF⟩ := by
    simp only [State.step, UInt8.le_iff_toNat_le, Bool.and_eq_true, decide_eq_true_eq]
    exact if_pos ⟨hlow, hhigh⟩
  rw [State.accepts, hstep]

theorem toNat_ofNat_of_lt {n : Nat} (h : n < 256) : (UInt8.ofNat n).toNat = n := by
  rw [UInt8.toNat_ofNat', Nat.mod_eq_of_lt h]

theorem accepts_continuation (n m : Nat) (t : Text) :
    (⟨n + 1, 0x80, 0xBF⟩ : State).accepts (UInt8.ofNat (m % 64 + 0x80) :: t) =
      (⟨n, 0x80, 0xBF⟩ : State).accepts t := by
  have hbyte := toNat_ofNat_of_lt (n := m % 64 + 0x80) (by omega)
  have hlow : (0x80 : UInt8).toNat = 0x80 := rfl
  have hhigh : (0xBF : UInt8).toNat = 0xBF := rfl
  exact accepts_of_bounds (by omega) (by omega)

/-- The machine passes the encoding of a character. -/
theorem accepts_utf8EncodeChar_append (c : Char) (t : Text) :
    State.start.accepts (String.utf8EncodeChar c ++ t) = State.start.accepts t := by
  have hvalid : c.toNat < 0xD800 ∨ 0xDFFF < c.toNat ∧ c.toNat < 0x110000 := c.valid
  obtain h | ⟨hmin, h⟩ | ⟨hmin, h⟩ | ⟨hmin, h⟩ := size_cases c
  · have hlead := toNat_ofNat_of_lt (n := c.toNat) (by omega)
    rw [utf8EncodeChar_one h]
    exact accepts_of_first (first_one (by omega))
  · have hlead := toNat_ofNat_of_lt (n := c.toNat / 64 % 32 + 0xC0) (by omega)
    rw [utf8EncodeChar_two hmin h]
    exact (accepts_of_first (first_two (by omega) (by omega))).trans (accepts_continuation 0 _ t)
  · have hlead := toNat_ofNat_of_lt (n := c.toNat / 4096 % 16 + 0xE0) (by omega)
    have hsecond := toNat_ofNat_of_lt (n := c.toNat / 64 % 64 + 0x80) (by omega)
    obtain ⟨low, high, hfirst, hlow, hhigh⟩ := first_three (b := UInt8.ofNat
      (c.toNat / 4096 % 16 + 0xE0)) (by omega) (by omega)
    rw [utf8EncodeChar_three hmin h]
    apply (accepts_of_first hfirst).trans
    exact (accepts_of_bounds (by omega) (by omega)).trans (accepts_continuation 0 _ t)
  · have hlead := toNat_ofNat_of_lt (n := c.toNat / 262144 % 8 + 0xF0) (by omega)
    have hsecond := toNat_ofNat_of_lt (n := c.toNat / 4096 % 64 + 0x80) (by omega)
    obtain ⟨low, high, hfirst, hlow, hhigh⟩ := first_four (b := UInt8.ofNat
      (c.toNat / 262144 % 8 + 0xF0)) (by omega) (by omega)
    rw [utf8EncodeChar_four hmin]
    apply (accepts_of_first hfirst).trans
    apply (accepts_of_bounds (by omega) (by omega)).trans
    exact (accepts_continuation 1 _ _).trans (accepts_continuation 0 _ t)

/-- Within a character the machine wants a byte within the bounds. -/
theorem exists_of_accepts {n : Nat} {low high : UInt8}
    (h : (⟨n + 1, low, high⟩ : State).accepts t = true) :
    ∃ b u, t = b :: u ∧ low.toNat ≤ b.toNat ∧ b.toNat ≤ high.toNat ∧
      (⟨n, 0x80, 0xBF⟩ : State).accepts u = true := by
  cases t with
  | nil => cases h
  | cons b u =>
    by_cases hb : low.toNat ≤ b.toNat ∧ b.toNat ≤ high.toNat
    · rw [accepts_of_bounds hb.1 hb.2] at h
      exact ⟨b, u, rfl, hb.1, hb.2, h⟩
    · have hstep : (⟨n + 1, low, high⟩ : State).step b = none := by
        simp only [State.step, UInt8.le_iff_toNat_le, Bool.and_eq_true, decide_eq_true_eq]
        exact if_neg hb
      rw [State.accepts, hstep] at h
      cases h

/-- What the machine accepts begins with the encoding of a character. -/
theorem exists_char_of_accepts (h : State.start.accepts (a :: t) = true) :
    ∃ (c : Char) (u : Text), a :: t = String.utf8EncodeChar c ++ u ∧
      State.start.accepts u = true := by
  obtain ha | ha | ha | ha | ha : a.toNat < 0x80 ∨ (0xC2 ≤ a.toNat ∧ a.toNat ≤ 0xDF) ∨
      (0xE0 ≤ a.toNat ∧ a.toNat ≤ 0xEF) ∨ (0xF0 ≤ a.toNat ∧ a.toNat ≤ 0xF4) ∨
      ¬(a.toNat < 0x80 ∨ (0xC2 ≤ a.toNat ∧ a.toNat ≤ 0xF4)) := by omega
  · rw [accepts_of_first (first_one ha)] at h
    obtain ⟨c, hc⟩ := exists_char_one ha
    exact ⟨c, t, by rw [hc]; rfl, h⟩
  · rw [accepts_of_first (first_two ha.1 ha.2)] at h
    obtain ⟨b, t, rfl, hblow, hbhigh, h⟩ := exists_of_accepts h
    obtain ⟨c, hc⟩ := exists_char_two ha ⟨hblow, hbhigh⟩
    exact ⟨c, t, by rw [hc]; rfl, h⟩
  · obtain ⟨low, high, hfirst, hlow, hhigh⟩ := first_three ha.1 ha.2
    rw [accepts_of_first hfirst] at h
    obtain ⟨b, t, rfl, hblow, hbhigh, h⟩ := exists_of_accepts h
    obtain ⟨d, t, rfl, hdlow, hdhigh, h⟩ := exists_of_accepts h
    have hb : InTail b := ⟨by omega, by omega⟩
    obtain ⟨c, hc⟩ := exists_char_three ha hb (by omega) (by omega) ⟨hdlow, hdhigh⟩
    exact ⟨c, t, by rw [hc]; rfl, h⟩
  · obtain ⟨low, high, hfirst, hlow, hhigh⟩ := first_four ha.1 ha.2
    rw [accepts_of_first hfirst] at h
    obtain ⟨b, t, rfl, hblow, hbhigh, h⟩ := exists_of_accepts h
    obtain ⟨d, t, rfl, hdlow, hdhigh, h⟩ := exists_of_accepts h
    obtain ⟨e, t, rfl, helow, hehigh, h⟩ := exists_of_accepts h
    have hb : InTail b := ⟨by omega, by omega⟩
    obtain ⟨c, hc⟩ :=
      exists_char_four ha hb (by omega) (by omega) ⟨hdlow, hdhigh⟩ ⟨helow, hehigh⟩
    exact ⟨c, t, by rw [hc]; rfl, h⟩
  · rw [State.accepts, show State.start.step a = none from first_none ha] at h
    cases h

end Machine

/-! ### Valid texts -/

section Validity

variable {t u : Text}

/-- The machine accepts exactly the sequences of encoded characters. -/
theorem isValid_iff : isValid t = true ↔ IsEncoded t := by
  constructor
  · intro h
    induction hlength : t.length using Nat.strongRecOn generalizing t with
    | ind n ih =>
      cases t with
      | nil => exact ⟨[], rfl⟩
      | cons a t =>
        obtain ⟨c, u, hu, haccepts⟩ := exists_char_of_accepts h
        have hshorter : u.length < n := by
          have hne := List.length_pos_iff.mpr (String.utf8EncodeChar_ne_nil (c := c))
          rw [← hlength, hu, List.length_append]
          omega
        obtain ⟨cs, rfl⟩ := ih u.length hshorter haccepts rfl
        exact ⟨c :: cs, by rw [hu, List.flatMap_cons]⟩
  · rintro ⟨cs, rfl⟩
    induction cs with
    | nil => rfl
    | cons c cs ih =>
      rw [List.flatMap_cons]
      exact (accepts_utf8EncodeChar_append c _).trans ih

instance : Decidable (IsEncoded t) := decidable_of_iff _ isValid_iff

/-- A character that is cut off is no character. -/
example : IsEncoded [0xC3, 0xA9] ∧ ¬IsEncoded [0xC3] := by decide

theorem isEncoded_utf8EncodeChar (c : Char) : IsEncoded (String.utf8EncodeChar c) :=
  ⟨[c], by simp⟩

theorem IsEncoded.append (ht : IsEncoded t) (hu : IsEncoded u) : IsEncoded (t ++ u) := by
  obtain ⟨cs, rfl⟩ := ht
  obtain ⟨ds, rfl⟩ := hu
  exact ⟨cs ++ ds, List.flatMap_append.symm⟩

/-- Only ASCII bytes encode a character on their own. -/
theorem utf8EncodeChar_of_mem {c : Char} {a : UInt8} (h : a ∈ String.utf8EncodeChar c)
    (ha : a.toNat < 0x80) : String.utf8EncodeChar c = [a] := by
  have hlead (n : Nat) (hn : 0x80 ≤ n % 256) : a ≠ UInt8.ofNat n := by
    rintro rfl
    rw [UInt8.toNat_ofNat'] at ha
    omega
  obtain hsize | ⟨hmin, hsize⟩ | ⟨hmin, hsize⟩ | ⟨hmin, hsize⟩ := size_cases c
  · rw [utf8EncodeChar_one hsize] at h ⊢
    rw [List.mem_singleton.mp h]
  · rw [utf8EncodeChar_two hmin hsize] at h
    simp only [List.mem_cons, List.not_mem_nil, or_false] at h
    obtain h | h := h <;> exact absurd h (hlead _ (by omega))
  · rw [utf8EncodeChar_three hmin hsize] at h
    simp only [List.mem_cons, List.not_mem_nil, or_false] at h
    obtain h | h | h := h <;> exact absurd h (hlead _ (by omega))
  · rw [utf8EncodeChar_four hmin] at h
    simp only [List.mem_cons, List.not_mem_nil, or_false] at h
    obtain h | h | h | h := h <;> exact absurd h (hlead _ (by omega))

/-- No character lies on both sides of an ASCII byte. -/
theorem isEncoded_append_cons_iff {a : UInt8} (ha : a.toNat < 0x80) :
    IsEncoded (t ++ a :: u) ↔ IsEncoded t ∧ IsEncoded u := by
  constructor
  · rintro ⟨cs, h⟩
    induction cs generalizing t with
    | nil => simp at h
    | cons c cs ih =>
      rw [List.flatMap_cons, List.append_eq_append_iff] at h
      obtain ⟨between, hc, h⟩ | ⟨between, rfl, h⟩ := h
      · cases between with
        | nil =>
          rw [List.append_nil] at hc
          exact ⟨hc ▸ isEncoded_utf8EncodeChar c, (ih (t := []) h).2⟩
        | cons b between =>
          obtain ⟨rfl, rfl⟩ := List.cons.inj h
          have hmem : a ∈ String.utf8EncodeChar c := by simp [hc]
          rw [utf8EncodeChar_of_mem hmem ha, List.singleton_eq_append_iff] at hc
          obtain ⟨rfl, hbetween⟩ | ⟨-, hbetween⟩ := hc
          · obtain rfl := (List.cons.inj hbetween).2
            exact ⟨⟨[], rfl⟩, ⟨cs, rfl⟩⟩
          · cases hbetween
      · obtain ⟨hbetween, hu⟩ := ih h.symm
        exact ⟨(isEncoded_utf8EncodeChar c).append hbetween, hu⟩
  · rintro ⟨ht, hu⟩
    obtain ⟨c, hc⟩ := exists_char_one ha
    have hbyte : IsEncoded [a] := hc ▸ isEncoded_utf8EncodeChar c
    exact ht.append (hbyte.append hu)

theorem isEncoded_of_append_append {w : Text} (hne : w ≠ []) (hw : ∀ b ∈ w, b.toNat < 0x80)
    (h : IsEncoded (t ++ (w ++ u))) : IsEncoded t ∧ IsEncoded u := by
  induction w generalizing t with
  | nil => exact absurd rfl hne
  | cons a w ih =>
    obtain ⟨ht, hrest⟩ := (isEncoded_append_cons_iff (hw a List.mem_cons_self)).mp h
    refine ⟨ht, ?_⟩
    cases w with
    | nil => exact hrest
    | cons b w =>
      have hlater : ∀ x ∈ b :: w, x.toNat < 0x80 := (List.forall_mem_cons.mp hw).2
      exact (ih (t := []) (List.cons_ne_nil b w) hlater hrest).2

end Validity

end AvroIdl.Utf8
