import AvroIdl.Literal.Quoted
import AvroIdl.Proofs.LiteralForms
import AvroIdl.Proofs.Utf8Encoding
import Mathlib.Data.List.Basic

/-!
# What string literals denote

A string literal is a sequence of plain bytes and escapes. It is decoded to the plain bytes and the
encodings of the characters that the escapes denote, or refused if there is no such sequence, and a
literal that is valid UTF-8 denotes a text that is.
-/
namespace AvroIdl.Literal

/-- What may follow a backslash on its own, and what it denotes. -/
def simpleEscapes : List (UInt8 × UInt8) :=
  [(0x62, 0x08), (0x74, 0x09), (0x6E, 0x0A), (0x66, 0x0C), (0x72, 0x0D), (Byte.doubleQuote, 0x22),
    (Byte.singleQuote, 0x27), (Byte.backslash, 0x5C)]

/-- A unicode escape has one or more letters `u` and four hexadecimal digits. -/
inductive UnicodeEscape : Text → Nat → Prop
  | mk {letters : Nat} {ds : Text} (nonempty : letters ≠ 0) (length : ds.length = 4)
      (digits : ∀ b ∈ ds, Byte.isHexDigit b = true) :
      UnicodeEscape (Byte.backslash :: (List.replicate letters 0x75 ++ ds)) (valueOf 16 ds)

/-- An escape, what follows it in the literal, and the code point that it denotes. -/
inductive IsEscape : Text → Text → Nat → Prop
  | simple {b c : UInt8} {rest : Text} (entry : (b, c) ∈ simpleEscapes) :
      IsEscape [Byte.backslash, b] rest c.toNat
  /-- As many digits as there are, up to three, or up to two after a first digit above three. -/
  | octal {first : UInt8} {ds rest : Text}
      (digits : ∀ b ∈ first :: ds, Byte.isOctalDigit b = true)
      (bounded : (first :: ds).length ≤ if first ≤ 0x33 then 3 else 2)
      (longest : (first :: ds).length = (if first ≤ 0x33 then 3 else 2) ∨
        ∀ b ∈ rest.head?, Byte.isOctalDigit b = false) :
      IsEscape (Byte.backslash :: first :: ds) rest (valueOf 8 (first :: ds))
  | unicode {w rest : Text} {n : Nat} (unit : UnicodeEscape w n)
      (scalar : n < 0xD800 ∨ 0xDFFF < n) : IsEscape w rest n
  | pair {v w rest : Text} {high low : Nat} (first : UnicodeEscape v high)
      (second : UnicodeEscape w low) (inHigh : 0xD800 ≤ high ∧ high ≤ 0xDBFF)
      (inLow : 0xDC00 ≤ low ∧ low ≤ 0xDFFF) :
      IsEscape (v ++ w) rest (0x10000 + (high - 0xD800) * 0x400 + (low - 0xDC00))

/-- A literal spells the text that it denotes. -/
inductive Spells : Text → Text → Prop
  | done : Spells [] []
  | plain {b : UInt8} {raw s : Text} (unescaped : b ≠ Byte.backslash) (rest : Spells raw s) :
      Spells (b :: raw) (b :: s)
  | escape {w raw s : Text} {c : Char} (denotes : IsEscape w raw c.toNat) (rest : Spells raw s) :
      Spells (w ++ raw) (String.utf8EncodeChar c ++ s)

/-! ### Simple escapes -/

theorem simpleEscape?_eq_some_iff {b c : UInt8} :
    simpleEscape? b = some c ↔ (b, c) ∈ simpleEscapes := by
  constructor
  · intro h
    unfold simpleEscape? at h
    split_ifs at h with hb hb hb hb hb hb
    iterate 5
      · subst hb
        cases h
        decide
    · cases h
      rcases hb with rfl | rfl | rfl <;> decide
  · intro h
    simp only [simpleEscapes, List.mem_cons, Prod.mk.injEq, List.not_mem_nil, or_false] at h
    rcases h with ⟨rfl, rfl⟩ | ⟨rfl, rfl⟩ | ⟨rfl, rfl⟩ | ⟨rfl, rfl⟩ | ⟨rfl, rfl⟩ | ⟨rfl, rfl⟩ |
      ⟨rfl, rfl⟩ | ⟨rfl, rfl⟩ <;> rfl

/-- The letters of simple escapes and what they denote are in ASCII. No letter starts an escape of
another kind, and none ends a line. -/
theorem simpleEscapes_ascii {b c : UInt8} (h : (b, c) ∈ simpleEscapes) :
    b.toNat < 0x80 ∧ c.toNat < 0x80 ∧ b ≠ 0x75 ∧ Byte.isOctalDigit b = false ∧
      b ≠ Byte.newline := by
  -- A quantifier over pairs of bytes would try every pair, not only the entries.
  have hall : simpleEscapes.all fun e => e.1.toNat < 0x80 ∧ e.2.toNat < 0x80 ∧ e.1 ≠ 0x75 ∧
      Byte.isOctalDigit e.1 = false ∧ e.1 ≠ Byte.newline := by decide
  exact of_decide_eq_true (List.all_eq_true.mp hall _ h)

/-! ### Octal escapes -/

section Octal

variable {first : UInt8} {t rest ds : Text}

theorem octalValue_eq (h : ∀ b ∈ ds, Byte.isOctalDigit b = true) :
    octalValue ds = valueOf 8 ds := by
  have hdigits : ds.filterMap Byte.hexValue? = ds.map fun b => b.toNat - 0x30 := by
    rw [← List.filterMap_eq_map']
    exact List.filterMap_congr fun b hb => Byte.hexValue?_of_isOctalDigit (h b hb)
  rw [← valueFrom_zero, valueFrom, hdigits, List.foldl_map]
  rfl

theorem takeWhile_eq_nil_iff {p : UInt8 → Bool} :
    t.takeWhile p = [] ↔ ∀ b ∈ t.head?, p b = false := by
  cases t with
  | nil => simp
  | cons b t => cases hb : p b <;> simp [hb]

/-- The longest run of a class that is no longer than a limit. -/
theorem takeWhile_take_eq_iff {p : UInt8 → Bool} {n : Nat} :
    ((ds ++ t).take n).takeWhile p = ds ↔
      (∀ b ∈ ds, p b = true) ∧ ds.length ≤ n ∧ (ds.length = n ∨ ∀ b ∈ t.head?, p b = false) := by
  have hrun (hall : ∀ b ∈ ds, p b = true) (hle : ds.length ≤ n) :
      ((ds ++ t).take n).takeWhile p = ds ↔ ds.length = n ∨ ∀ b ∈ t.head?, p b = false := by
    rw [List.take_append, List.take_of_length_le hle, List.takeWhile_append_of_pos hall,
      List.append_right_eq_self, takeWhile_eq_nil_iff, List.head?_take]
    split
    · next hzero => simp [show ds.length = n by omega]
    · next hpos => simp [show ds.length ≠ n by omega]
  constructor
  · intro h
    have hall : ∀ b ∈ ds, p b = true := by
      rw [← h, ← List.all_eq_true]
      exact List.all_takeWhile
    have hle : ds.length ≤ n := by
      calc ds.length = (((ds ++ t).take n).takeWhile p).length := by rw [h]
        _ ≤ ((ds ++ t).take n).length := (List.takeWhile_prefix p).length_le
        _ ≤ n := List.length_take_le n _
    exact ⟨hall, hle, (hrun hall hle).mp h⟩
  · rintro ⟨hall, hle, hend⟩
    exact (hrun hall hle).mpr hend

theorem octalValue_lt (h : ∀ b ∈ ds, Byte.isOctalDigit b = true) (hlength : ds.length ≤ 3) :
    valueOf 8 ds < 0xD800 := by
  have hvalue : valueOf 8 ds < 8 ^ ds.length := by
    refine valueOf_lt (by decide) fun b hb d hd => ?_
    obtain ⟨d', hd', hb'⟩ := Byte.isOctalDigit_iff.mp (h b hb)
    rw [hd] at hb'
    cases hb'
    exact hd'
  have hpow : 8 ^ ds.length ≤ 8 ^ 3 := Nat.pow_le_pow_right (by decide) hlength
  omega

/-- An octal escape is read to the end of its digits. -/
theorem decodeOctal_sound (hfirst : Byte.isOctalDigit first = true) :
    ∃ w n, Byte.backslash :: first :: t = w ++ (decodeOctal first (first :: t)).2 ∧
      IsEscape w (decodeOctal first (first :: t)).2 n ∧
      (decodeOctal first (first :: t)).1 = Utf8.encode n := by
  have hpos : octalWidth first ≠ 0 := by unfold octalWidth; split <;> decide
  obtain ⟨width, hwidth⟩ := Nat.exists_eq_succ_of_ne_zero hpos
  obtain ⟨ds, hds⟩ : ∃ ds, ((first :: t).take (octalWidth first)).takeWhile Byte.isOctalDigit =
      first :: ds := by
    rw [hwidth, List.take_succ_cons, List.takeWhile_cons_of_pos hfirst]
    exact ⟨_, rfl⟩
  have hstart : first :: ds <+: first :: t := by
    rw [← hds]
    exact (List.takeWhile_prefix _).trans (List.take_prefix _ _)
  have hsplit := (List.prefix_iff_eq_append.mp hstart).symm
  have hrun := hds
  rw [hsplit, takeWhile_take_eq_iff] at hrun
  obtain ⟨hdigits, hbounded, hlongest⟩ := hrun
  have hdecode : decodeOctal first (first :: t) =
      (Utf8.encode (valueOf 8 (first :: ds)), (first :: t).drop (first :: ds).length) := by
    unfold decodeOctal
    dsimp only
    rw [hds, octalValue_eq hdigits]
  rw [hdecode]
  exact ⟨_, _, congrArg (Byte.backslash :: ·) hsplit, .octal hdigits hbounded hlongest, rfl⟩

theorem decodeOctal_complete (hdigits : ∀ b ∈ first :: ds, Byte.isOctalDigit b = true)
    (hbounded : (first :: ds).length ≤ octalWidth first)
    (hlongest : (first :: ds).length = octalWidth first ∨
      ∀ b ∈ rest.head?, Byte.isOctalDigit b = false) :
    decodeOctal first (first :: ds ++ rest) = (Utf8.encode (valueOf 8 (first :: ds)), rest) := by
  unfold decodeOctal
  dsimp only
  rw [takeWhile_take_eq_iff.mpr ⟨hdigits, hbounded, hlongest⟩, octalValue_eq hdigits,
    List.drop_left]

end Octal

/-! ### Unicode escapes -/

section Unicode

variable {w t rest : Text} {n : Nat}

theorem valueOf_four {a b c d : UInt8} {i j k l : Nat} (ha : Byte.hexValue? a = some i)
    (hb : Byte.hexValue? b = some j) (hc : Byte.hexValue? c = some k)
    (hd : Byte.hexValue? d = some l) :
    valueOf 16 [a, b, c, d] = ((i * 16 + j) * 16 + k) * 16 + l := by
  rw [← valueFrom_zero, valueFrom_cons_of_some _ ha, valueFrom_cons_of_some _ hb,
    valueFrom_cons_of_some _ hc, valueFrom_cons_of_some _ hd, valueFrom_nil, Nat.zero_mul,
    Nat.zero_add]

theorem escape_readUnit_eq_some_iff :
    Escape.readUnit t = some (n, rest) ↔
      ∃ ds, t = ds ++ rest ∧ ds.length = 4 ∧ (∀ b ∈ ds, Byte.isHexDigit b = true) ∧
        n = valueOf 16 ds := by
  constructor
  · intro h
    unfold Escape.readUnit at h
    split at h
    · next a b c d t =>
      simp only [Option.bind_eq_bind, Option.bind_eq_some_iff, Option.pure_def, Option.some.injEq,
        Prod.mk.injEq] at h
      obtain ⟨i, ha, j, hb, k, hc, l, hd, hn, rfl⟩ := h
      refine ⟨[a, b, c, d], rfl, rfl, ?_, ?_⟩
      · simp [Byte.isHexDigit, ha, hb, hc, hd]
      · rw [valueOf_four ha hb hc hd, hn]
    · cases h
  · rintro ⟨ds, rfl, hlength, hdigits, rfl⟩
    obtain ⟨a, b, c, d, rfl⟩ := List.length_eq_four.mp hlength
    simp only [Byte.isHexDigit, Option.isSome_iff_exists, List.forall_mem_cons] at hdigits
    obtain ⟨⟨i, ha⟩, ⟨j, hb⟩, ⟨k, hc⟩, ⟨l, hd⟩, -⟩ := hdigits
    rw [valueOf_four ha hb hc hd]
    simp [Escape.readUnit, ha, hb, hc, hd]

theorem isLetterU_iff {b : UInt8} : isLetterU b = true ↔ b = 0x75 := beq_iff_eq

theorem UnicodeEscape.exists_cons (h : UnicodeEscape w n) :
    ∃ t, w = Byte.backslash :: 0x75 :: t := by
  cases h with
  | mk nonempty length digits =>
    obtain ⟨k, rfl⟩ := Nat.exists_eq_succ_of_ne_zero nonempty
    exact ⟨_, rfl⟩

theorem UnicodeEscape.lt (h : UnicodeEscape w n) : n < 0x10000 := by
  cases h with
  | @mk letters ds nonempty length digits =>
    have hvalue : valueOf 16 ds < 16 ^ ds.length :=
      valueOf_lt (by decide) fun b _ d hd => Byte.hexValue?_lt hd
    rwa [length] at hvalue

/-- The digits of a unicode escape follow its last letter. -/
theorem readUnit_eq_some_iff :
    readUnit (0x75 :: t) = some (n, rest) ↔
      ∃ w, Byte.backslash :: 0x75 :: t = w ++ rest ∧ UnicodeEscape w n := by
  rw [readUnit, escape_readUnit_eq_some_iff]
  constructor
  · rintro ⟨ds, hrest, hlength, hdigits, rfl⟩
    have hletters : (0x75 :: t).takeWhile isLetterU =
        List.replicate ((0x75 :: t).takeWhile isLetterU).length 0x75 := by
      refine List.eq_replicate_iff.mpr ⟨rfl, fun b hb => isLetterU_iff.mp ?_⟩
      exact List.all_eq_true.mp List.all_takeWhile b hb
    have hnonempty : ((0x75 :: t).takeWhile isLetterU).length ≠ 0 := by
      rw [List.takeWhile_cons_of_pos rfl]
      simp
    refine ⟨_, ?_, .mk hnonempty hlength hdigits⟩
    rw [← hletters, List.cons_append, List.append_assoc, ← hrest, List.takeWhile_append_dropWhile]
  · rintro ⟨w, hw, h⟩
    cases h with
    | @mk letters ds nonempty length digits =>
      refine ⟨ds, ?_, length, digits, rfl⟩
      rw [List.cons_append, List.append_assoc] at hw
      rw [(List.cons.inj hw).2, List.dropWhile_append_of_pos]
      · obtain ⟨a, b, c, d, rfl⟩ := List.length_eq_four.mp length
        rw [List.cons_append, List.dropWhile_cons_of_neg]
        intro ha
        have hdigit := digits a List.mem_cons_self
        rw [isLetterU_iff.mp ha] at hdigit
        cases hdigit
      · intro b hb
        exact isLetterU_iff.mpr (List.eq_of_mem_replicate hb)

theorem readSecondUnit_eq_some_iff :
    readSecondUnit t = some (n, rest) ↔ ∃ w, t = w ++ rest ∧ UnicodeEscape w n := by
  constructor
  · intro h
    unfold readSecondUnit at h
    split at h
    · next b c t =>
      split at h
      · next hstart =>
        obtain ⟨rfl, hc⟩ := hstart
        obtain rfl := isLetterU_iff.mp hc
        exact readUnit_eq_some_iff.mp h
      · cases h
    · cases h
  · rintro ⟨w, rfl, h⟩
    obtain ⟨u, rfl⟩ := h.exists_cons
    rw [List.cons_append, List.cons_append, readSecondUnit, if_pos ⟨rfl, rfl⟩]
    exact readUnit_eq_some_iff.mpr ⟨_, rfl, h⟩

theorem isHighSurrogate_iff : Escape.isHighSurrogate n = true ↔ 0xD800 ≤ n ∧ n ≤ 0xDBFF := by
  simp [Escape.isHighSurrogate]

theorem isLowSurrogate_iff : Escape.isLowSurrogate n = true ↔ 0xDC00 ≤ n ∧ n ≤ 0xDFFF := by
  simp [Escape.isLowSurrogate]

theorem decodeUnicode_sound {s : Text} (h : decodeUnicode (0x75 :: t) = .ok (s, rest)) :
    ∃ w n, Byte.backslash :: 0x75 :: t = w ++ rest ∧ IsEscape w rest n ∧ s = Utf8.encode n := by
  unfold decodeUnicode at h
  dsimp only at h
  split at h
  · cases h
  · next unit after hfirst =>
    obtain ⟨v, hv, hunit⟩ := readUnit_eq_some_iff.mp hfirst
    split at h
    · next hhigh =>
      split at h
      · cases h
      · next low after' hsecond =>
        obtain ⟨w, rfl, hlow⟩ := readSecondUnit_eq_some_iff.mp hsecond
        split at h
        · next hrange =>
          obtain ⟨rfl, rfl⟩ := Prod.mk.inj (Except.ok.inj h)
          unfold Escape.surrogatePair
          refine ⟨v ++ w, _, ?_, .pair hunit hlow (isHighSurrogate_iff.mp hhigh)
            (isLowSurrogate_iff.mp hrange), rfl⟩
          rw [hv, List.append_assoc]
        · cases h
    · next hhigh =>
      split at h
      · cases h
      · next hlow =>
        cases h
        rw [isHighSurrogate_iff] at hhigh
        rw [isLowSurrogate_iff] at hlow
        exact ⟨v, unit, hv, .unicode hunit (by omega), rfl⟩

theorem decodeUnicode_of_scalar (hw : Byte.backslash :: 0x75 :: t = w ++ rest)
    (h : UnicodeEscape w n) (hscalar : n < 0xD800 ∨ 0xDFFF < n) :
    decodeUnicode (0x75 :: t) = .ok (Utf8.encode n, rest) := by
  have hhigh : ¬Escape.isHighSurrogate n = true := by
    rw [isHighSurrogate_iff]
    omega
  have hlow : ¬Escape.isLowSurrogate n = true := by
    rw [isLowSurrogate_iff]
    omega
  unfold decodeUnicode
  rw [readUnit_eq_some_iff.mpr ⟨w, hw, h⟩]
  exact (if_neg hhigh).trans (if_neg hlow)

theorem decodeUnicode_of_pair {v : Text} {high low : Nat}
    (hw : Byte.backslash :: 0x75 :: t = v ++ (w ++ rest)) (hfirst : UnicodeEscape v high)
    (hsecond : UnicodeEscape w low) (hhigh : 0xD800 ≤ high ∧ high ≤ 0xDBFF)
    (hlow : 0xDC00 ≤ low ∧ low ≤ 0xDFFF) :
    decodeUnicode (0x75 :: t) = .ok (Utf8.encode (Escape.surrogatePair high low), rest) := by
  unfold decodeUnicode
  rw [readUnit_eq_some_iff.mpr ⟨v, hw, hfirst⟩]
  dsimp only
  rw [if_pos (isHighSurrogate_iff.mpr hhigh), readSecondUnit_eq_some_iff.mpr ⟨w, rfl, hsecond⟩]
  exact if_pos (isLowSurrogate_iff.mpr hlow)

end Unicode

/-! ### Escapes and literals -/

section Decoding

variable {raw s t u w rest : Text} {n : Nat}

theorem simpleEscape?_eq_none {b : UInt8} (h : b = 0x75 ∨ Byte.isOctalDigit b = true) :
    simpleEscape? b = none := by
  cases hb : simpleEscape? b with
  | none => rfl
  | some c =>
    have hentry := simpleEscape?_eq_some_iff.mp hb
    obtain ⟨-, -, hletter, hdigit, -⟩ := simpleEscapes_ascii hentry
    rcases h with h | h
    · exact absurd h hletter
    · rw [h] at hdigit
      cases hdigit

/-- What simple escapes denote are ASCII characters. -/
theorem encode_of_mem_simpleEscapes {b c : UInt8} (h : (b, c) ∈ simpleEscapes) :
    Utf8.encode c.toNat = [c] := by
  obtain ⟨-, hascii, -⟩ := simpleEscapes_ascii h
  rw [Utf8.encode, if_pos hascii, Nat.toUInt8_eq, UInt8.ofNat_toNat]

/-- Reading after a backslash finds an escape of the grammar, or there is none. -/
theorem decodeEscape_sound (h : decodeEscape u = .ok (s, rest)) :
    ∃ w n, Byte.backslash :: u = w ++ rest ∧ IsEscape w rest n ∧ s = Utf8.encode n := by
  unfold decodeEscape at h
  split at h
  · cases h
  · next b t =>
    split at h
    · next c hsimple =>
      cases h
      have hentry := simpleEscape?_eq_some_iff.mp hsimple
      exact ⟨_, _, rfl, .simple hentry, (encode_of_mem_simpleEscapes hentry).symm⟩
    · split at h
      · next hletter =>
        obtain rfl := isLetterU_iff.mp hletter
        exact decodeUnicode_sound h
      · split at h
        · next hdigit =>
          have hrest := Except.ok.inj h
          obtain ⟨w, n, hw, hescape, hs⟩ := decodeOctal_sound (t := t) hdigit
          rw [hrest] at hw hescape hs
          exact ⟨w, n, hw, hescape, hs⟩
        · cases h

theorem decodeEscape_complete (h : IsEscape w rest n) :
    ∃ u, w = Byte.backslash :: u ∧ decodeEscape (u ++ rest) = .ok (Utf8.encode n, rest) := by
  cases h with
  | @simple b c _ entry =>
    refine ⟨[b], rfl, ?_⟩
    rw [List.singleton_append, decodeEscape, simpleEscape?_eq_some_iff.mpr entry,
      encode_of_mem_simpleEscapes entry]
  | @octal first ds _ digits bounded longest =>
    have hfirst := digits first List.mem_cons_self
    have hletter : ¬isLetterU first = true := by
      rw [isLetterU_iff]
      rintro rfl
      cases hfirst
    refine ⟨first :: ds, rfl, ?_⟩
    rw [List.cons_append, decodeEscape, simpleEscape?_eq_none (.inr hfirst)]
    dsimp only
    rw [if_neg hletter, if_pos hfirst, ← List.cons_append,
      decodeOctal_complete digits bounded longest]
  | unicode unit scalar =>
    obtain ⟨t, rfl⟩ := unit.exists_cons
    refine ⟨_, rfl, ?_⟩
    rw [List.cons_append, decodeEscape, simpleEscape?_eq_none (.inl rfl)]
    exact decodeUnicode_of_scalar rfl unit scalar
  | @pair v w _ high low first second inHigh inLow =>
    obtain ⟨t, rfl⟩ := first.exists_cons
    refine ⟨0x75 :: (t ++ w), rfl, ?_⟩
    rw [List.cons_append, decodeEscape, simpleEscape?_eq_none (.inl rfl)]
    refine decodeUnicode_of_pair ?_ first second inHigh inLow
    rw [List.append_assoc]
    rfl

theorem IsEscape.isValidChar (h : IsEscape w rest n) : n.isValidChar := by
  cases h with
  | @simple b c _ entry =>
    have hc := c.toNat_lt
    exact .inl (by omega)
  | octal digits bounded longest =>
    refine .inl (octalValue_lt digits (bounded.trans ?_))
    split <;> decide
  | unicode unit scalar =>
    have hunit := unit.lt
    unfold Nat.isValidChar
    omega
  | pair first second inHigh inLow => exact .inr (by omega)

theorem IsEscape.ne_nil (h : IsEscape w rest n) : w ≠ [] := by
  obtain ⟨u, rfl, -⟩ := decodeEscape_complete h
  exact List.cons_ne_nil _ _

theorem UnicodeEscape.toNat_lt (h : UnicodeEscape w n) : ∀ b ∈ w, b.toNat < 0x80 := by
  cases h with
  | mk nonempty length digits =>
    intro b hb
    rw [List.mem_cons, List.mem_append] at hb
    rcases hb with rfl | hb | hb
    · decide
    · rw [List.eq_of_mem_replicate hb]
      decide
    · obtain ⟨d, hd⟩ := Option.isSome_iff_exists.mp (digits b hb)
      obtain h | h | h := Byte.hexValue?_eq_some hd <;> omega

/-- Escapes are written in ASCII. -/
theorem IsEscape.toNat_lt (h : IsEscape w rest n) : ∀ b ∈ w, b.toNat < 0x80 := by
  cases h with
  | simple entry =>
    have hletter := (simpleEscapes_ascii entry).1
    simpa using ⟨by decide, hletter⟩
  | octal digits bounded longest =>
    intro b hb
    rcases List.mem_cons.mp hb with rfl | hb
    · decide
    · have hdigit := Byte.isOctalDigit_iff_toNat.mp (digits b hb)
      omega
  | unicode unit scalar => exact unit.toNat_lt
  | pair first second inHigh inLow =>
    intro b hb
    exact (List.mem_append.mp hb).elim (first.toNat_lt b) (second.toNat_lt b)

theorem bind_eq_ok_iff {α β : Type} {x : Except Problem α} {f : α → Except Problem β} {y : β} :
    x.bind f = .ok y ↔ ∃ a, x = .ok a ∧ f a = .ok y := by
  cases x <;> simp [Except.bind]

theorem bind_eq_error_iff {α β : Type} {x : Except Problem α} {f : α → Except Problem β}
    {p : Problem} : x.bind f = .error p ↔ x = .error p ∨ ∃ a, x = .ok a ∧ f a = .error p := by
  cases x <;> simp [Except.bind]

/-- One step passes a plain byte, and the next ones decode the rest. -/
theorem decodeCharacters_plain {b : UInt8} (hb : b ≠ Byte.backslash) (steps : Nat) (t : Text) :
    decodeCharacters (steps + 1) (b :: t) =
      (decodeCharacters steps t).bind fun s => .ok (b :: s) := by
  rw [decodeCharacters, if_neg hb]
  rfl

/-- One step passes an escape, and the next ones decode the rest. -/
theorem decodeCharacters_escape (steps : Nat) (t : Text) :
    decodeCharacters (steps + 1) (Byte.backslash :: t) =
      (decodeEscape t).bind fun read =>
        (decodeCharacters steps read.2).bind fun s => .ok (read.1 ++ s) := by
  rw [decodeCharacters, if_pos rfl]
  rfl

/-- What is read within as many steps as there are bytes is spelled. -/
theorem spells_of_decodeCharacters {steps : Nat} (hsteps : raw.length ≤ steps)
    (h : decodeCharacters steps raw = .ok s) : Spells raw s := by
  -- A plain byte and an escape are not empty, so the steps that are left are enough for the rest.
  induction steps generalizing raw s with
  | zero =>
    obtain rfl := List.eq_nil_of_length_eq_zero (Nat.le_zero.mp hsteps)
    cases h
    exact .done
  | succ steps ih =>
    cases raw with
    | nil =>
      cases h
      exact .done
    | cons b t =>
      have ht : t.length ≤ steps := Nat.le_of_succ_le_succ hsteps
      by_cases hb : b = Byte.backslash
      · subst hb
        rw [decodeCharacters_escape, bind_eq_ok_iff] at h
        obtain ⟨⟨piece, rest⟩, hescape, h⟩ := h
        obtain ⟨s', hrest, h⟩ := bind_eq_ok_iff.mp h
        obtain ⟨w, n, hw, hdenotes, rfl⟩ := decodeEscape_sound hescape
        obtain ⟨c, rfl⟩ := Utf8.exists_char hdenotes.isValidChar
        have hpos := List.length_pos_iff.mpr hdenotes.ne_nil
        have hlength := congrArg List.length hw
        rw [List.length_cons, List.length_append] at hlength
        rw [hw, ← Except.ok.inj h, Utf8.encode_toNat]
        exact .escape hdenotes (ih (by omega) hrest)
      · rw [decodeCharacters_plain hb, bind_eq_ok_iff] at h
        obtain ⟨s', hrest, h⟩ := h
        rw [← Except.ok.inj h]
        exact .plain hb (ih ht hrest)

theorem decodeCharacters_of_spells {steps : Nat} (h : Spells raw s)
    (hsteps : raw.length ≤ steps) : decodeCharacters steps raw = .ok s := by
  induction h generalizing steps with
  | done => cases steps <;> rfl
  | @plain b raw s unescaped rest ih =>
    obtain ⟨steps, rfl⟩ := Nat.exists_eq_succ_of_ne_zero (Nat.ne_zero_of_lt hsteps)
    rw [Nat.succ_eq_add_one, decodeCharacters_plain unescaped,
      ih (Nat.le_of_succ_le_succ hsteps)]
    rfl
  | @escape w raw s c denotes rest ih =>
    obtain ⟨u, rfl, hdecode⟩ := decodeEscape_complete denotes
    obtain ⟨steps, rfl⟩ := Nat.exists_eq_succ_of_ne_zero (Nat.ne_zero_of_lt hsteps)
    rw [List.cons_append, List.length_cons, List.length_append] at hsteps
    rw [List.cons_append, Nat.succ_eq_add_one, decodeCharacters_escape, hdecode,
      Utf8.encode_toNat, Except.bind, ih (by omega)]
    rfl

theorem decodeUnicode_eq_error {p : Problem} (h : decodeUnicode t = .error p) :
    ∃ sequence, p = .unicodeEscape sequence ∨ p = .unpairedSurrogate sequence := by
  unfold decodeUnicode at h
  dsimp only at h
  split at h
  · exact ⟨_, .inl (Except.error.inj h).symm⟩
  · split at h
    · split at h
      · exact ⟨_, .inr (Except.error.inj h).symm⟩
      · split at h
        · cases h
        · exact ⟨_, .inr (Except.error.inj h).symm⟩
    · split at h
      · exact ⟨_, .inr (Except.error.inj h).symm⟩
      · cases h

/-- Only at the end of a literal there is a backslash on its own. -/
theorem decodeEscape_eq_error {p : Problem} (h : decodeEscape t = .error p) :
    t = [] ∧ p = .loneBackslash ∨ ∃ sequence, p = .unicodeEscape sequence ∨
      p = .unpairedSurrogate sequence ∨ p = .unknownEscape sequence := by
  unfold decodeEscape at h
  split at h
  · exact .inl ⟨rfl, (Except.error.inj h).symm⟩
  · right
    split at h
    · cases h
    · split at h
      · obtain ⟨sequence, h | h⟩ := decodeUnicode_eq_error h
        · exact ⟨sequence, .inl h⟩
        · exact ⟨sequence, .inr (.inl h)⟩
      · split at h
        · cases h
        · exact ⟨_, .inr (.inr (Except.error.inj h).symm)⟩

theorem kind_of_decodeEscape {p : Problem} (h : decodeEscape t = .error p) :
    p.kind = .invalidEscape := by
  obtain ⟨-, rfl⟩ | ⟨sequence, rfl | rfl | rfl⟩ := decodeEscape_eq_error h <;> rfl

theorem kind_of_decodeCharacters {steps : Nat} {p : Problem}
    (h : decodeCharacters steps raw = .error p) : p.kind = .invalidEscape := by
  induction steps generalizing raw with
  | zero => cases h
  | succ steps ih =>
    cases raw with
    | nil => cases h
    | cons b t =>
      by_cases hb : b = Byte.backslash
      · subst hb
        rw [decodeCharacters_escape, bind_eq_error_iff] at h
        obtain h | ⟨read, -, h⟩ := h
        · exact kind_of_decodeEscape h
        · obtain h | ⟨s, -, h⟩ := bind_eq_error_iff.mp h
          · exact ih h
          · cases h
      · rw [decodeCharacters_plain hb, bind_eq_error_iff] at h
        obtain h | ⟨s, -, h⟩ := h
        · exact ih h
        · cases h

theorem decodeString_eq_ok_iff : decodeString raw = .ok s ↔ Spells raw s :=
  ⟨spells_of_decodeCharacters le_rfl, fun h => decodeCharacters_of_spells h le_rfl⟩

/-- An octal escape ends after its third digit, and a pair of surrogates is one character. -/
example : decodeString "\\1012" = .ok "A2" ∧
    decodeString "\\uuD83D\\uDE00" = .ok [0xF0, 0x9F, 0x98, 0x80] := by decide

theorem refused_decodeString (h : ∀ s, ¬Spells raw s) :
    Refused (decodeString raw) [.invalidEscape] := by
  cases hdecode : decodeString raw with
  | ok s => exact absurd (decodeString_eq_ok_iff.mp hdecode) (h s)
  | error p => exact refused_error (List.mem_singleton.mpr (kind_of_decodeCharacters hdecode))

/-- Behind a text that has been read already, a literal and what it spells are valid together. An
escape is in ASCII, so no character of the literal reaches across it. -/
theorem Spells.isEncoded_append {read : Text} (h : Spells raw s)
    (hraw : Utf8.IsEncoded (read ++ raw)) : Utf8.IsEncoded (read ++ s) := by
  induction h generalizing read with
  | done => exact hraw
  | @plain b raw s unescaped rest ih =>
    rw [List.append_cons] at hraw ⊢
    exact ih hraw
  | @escape w raw s c denotes rest ih =>
    obtain ⟨hread, hrest⟩ :=
      Utf8.isEncoded_of_append_append denotes.ne_nil denotes.toNat_lt hraw
    have hcharacter := Utf8.isEncoded_utf8EncodeChar c
    rw [← List.append_assoc]
    apply ih
    exact (hread.append hcharacter).append hrest

/-- How a string literal is decoded, whatever its bytes. -/
structure DecodedBySpelling (raw : Text) : Prop where
  spelled : ∀ s, decodeString raw = .ok s ↔ Spells raw s
  refused : (∀ s, ¬Spells raw s) → Refused (decodeString raw) [.invalidEscape]
  /-- What a valid text spells is valid. -/
  valid : Utf8.isValid raw = true → ∀ s, decodeString raw = .ok s → Utf8.isValid s = true

/-- A string literal is decoded to the text that it spells, or refused. -/
theorem decodedBySpelling (raw : Text) : DecodedBySpelling raw where
  spelled _ := decodeString_eq_ok_iff
  refused := refused_decodeString
  valid hraw s h := by
    rw [Utf8.isValid_iff] at hraw ⊢
    have hs : Utf8.IsEncoded ([] ++ s) := (decodeString_eq_ok_iff.mp h).isEncoded_append hraw
    exact hs

end Decoding

end AvroIdl.Literal
