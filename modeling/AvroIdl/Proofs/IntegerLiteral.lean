import AvroIdl.Proofs.LiteralForms

/-!
# What integer literals denote

An integer literal is an optional minus sign, digits in one of three radices, and an optional
suffix. It is decoded to the number that it denotes exactly if 64 bits with a sign hold that number,
and the word in which the digits are gathered always is the number that they denote so far.
-/
namespace AvroIdl.Literal

/-- Digits of a base, with underscores anywhere among them. -/
def IsDigits (base : Nat) (t : Text) : Prop :=
  ∀ b ∈ t, b = Byte.underscore ∨ ∃ d < base, Byte.hexValue? b = some d

/-- Not all of the bytes are underscores. -/
def HasDigit (t : Text) : Prop := ∃ b ∈ t, b ≠ Byte.underscore

instance (t : Text) : Decidable (HasDigit t) :=
  inferInstanceAs (Decidable (∃ b ∈ t, b ≠ Byte.underscore))

inductive Radix where
  | hexadecimal
  | octal
  | decimal

/-- How a number is written in a radix. The zero before octal digits is a digit itself, the one in
`0x` is not. -/
inductive Writes : Radix → Text → Nat → Prop
  | hexadecimal {x : UInt8} {ds : Text} (mark : x = 0x78 ∨ x = 0x58) (digits : IsDigits 16 ds)
      (nonempty : HasDigit ds) : Writes .hexadecimal (0x30 :: x :: ds) (valueOf 16 ds)
  | octal {ds : Text} (digits : IsDigits 8 ds) (nonempty : ds ≠ []) :
      Writes .octal (0x30 :: ds) (valueOf 8 ds)
  | decimal {ds : Text} (digits : IsDigits 10 ds) (nonempty : HasDigit ds) :
      Writes .decimal ds (valueOf 10 ds)

/-- A literal with an optional sign and suffix denotes a number that 64 bits with a sign hold;
`isDecimal` tells which texts are read in the decimal radix. -/
def Denotes (isDecimal : Text → Prop) (raw : Text) (n : Int) : Prop :=
  ∃ sign t suffix radix, ∃ m : Nat, raw = sign ++ t ++ suffix ∧
    (sign = [] ∨ sign = [Byte.minus]) ∧ (suffix = [] ∨ suffix = [0x6C] ∨ suffix = [0x4C]) ∧
    Writes radix t m ∧ (radix = .decimal → isDecimal t) ∧
    n = (if sign = [] then (m : Int) else -m) ∧ -2 ^ 63 ≤ n ∧ n < 2 ^ 63

/-- A zero at the start is the only byte. -/
def ZeroAlone (t : Text) : Prop := ∀ rest, t = 0x30 :: rest → rest = []

/-! ### Gathering digits in a word -/

theorem toNat_magnitudeLimit : magnitudeLimit.toNat = 2 ^ 63 := rfl

section Word

variable {base d : Nat} {v : UInt64}

theorem toNat_toUInt64_of_lt {n : Nat} (h : n < 2 ^ 64) : n.toUInt64.toNat = n := by
  rw [Nat.toUInt64_eq, UInt64.toNat_ofNat', Nat.mod_eq_of_lt h]

/-- The check before a digit is added says whether the range would be left. -/
theorem guard_iff (hd : d < base) (hbase : base ≤ 16) :
    (magnitudeLimit - d.toUInt64) / base.toUInt64 < v ↔ 2 ^ 63 < v.toNat * base + d := by
  have hdigit : d.toUInt64.toNat = d := toNat_toUInt64_of_lt (by omega)
  have hle : d.toUInt64 ≤ magnitudeLimit := by
    rw [UInt64.le_iff_toNat_le, hdigit, toNat_magnitudeLimit]
    omega
  rw [UInt64.lt_iff_toNat_lt, UInt64.toNat_div, UInt64.toNat_sub_of_le _ _ hle, hdigit,
    toNat_magnitudeLimit, toNat_toUInt64_of_lt (by omega), Nat.div_lt_iff_lt_mul (by omega)]
  omega

/-- Within the range adding a digit does not wrap. -/
theorem toNat_step (hd : d < base) (hbase : base ≤ 16) (h : v.toNat * base + d ≤ 2 ^ 63) :
    (v * base.toUInt64 + d.toUInt64).toNat = v.toNat * base + d := by
  have hproduct : (v * base.toUInt64).toNat = v.toNat * base := by
    rw [UInt64.toNat_mul, toNat_toUInt64_of_lt (by omega), Nat.mod_eq_of_lt (by omega)]
  rw [UInt64.toNat_add, hproduct, toNat_toUInt64_of_lt (by omega), Nat.mod_eq_of_lt (by omega)]

end Word

section Reading

variable {raw t : Text} {base : Nat} {seen : Bool} {v : UInt64}

theorem isDigits_cons_iff {b : UInt8} :
    IsDigits base (b :: t) ↔
      (b = Byte.underscore ∨ ∃ d < base, Byte.hexValue? b = some d) ∧ IsDigits base t :=
  List.forall_mem_cons

/-- Digits whose number is in the range are gathered to that number. -/
theorem readMagnitude_eq_ok (hbase : base ≤ 16) (hdigits : IsDigits base t)
    (hrange : valueFrom base v.toNat t ≤ 2 ^ 63) :
    readMagnitude raw base seen v t =
      .ok (seen || t.any (· != Byte.underscore), (valueFrom base v.toNat t).toUInt64) := by
  induction t generalizing seen v with
  | nil => simp [readMagnitude]
  | cons b t ih =>
    obtain ⟨hb, ht⟩ := isDigits_cons_iff.mp hdigits
    rw [readMagnitude]
    by_cases hgap : b = Byte.underscore
    · subst hgap
      rw [valueFrom_cons_of_none t Byte.hexValue?_underscore] at hrange ⊢
      rw [if_pos rfl, ih ht hrange]
      simp
    · obtain ⟨d, hd, hvalue⟩ := hb.resolve_left hgap
      rw [valueFrom_cons_of_some t hvalue] at hrange ⊢
      have hnext : v.toNat * base + d ≤ 2 ^ 63 := (le_valueFrom (by omega) _ t).trans hrange
      have hguard : ¬(magnitudeLimit - d.toUInt64) / base.toUInt64 < v := by
        rw [guard_iff hd hbase]
        omega
      rw [← toNat_step hd hbase hnext] at hrange ⊢
      rw [if_neg hgap, hvalue]
      simp only [if_neg (Nat.not_le.mpr hd), if_neg hguard]
      rw [ih ht hrange]
      simp [hgap]

/-- Anything else is refused. -/
theorem readMagnitude_eq_error (hbase : base ≤ 16) (hv : v.toNat ≤ 2 ^ 63)
    (h : ¬(IsDigits base t ∧ valueFrom base v.toNat t ≤ 2 ^ 63)) :
    ∃ p, readMagnitude raw base seen v t = .error p ∧
      p.kind ∈ [.syntaxError, .numericRangeError] := by
  induction t generalizing seen v with
  | nil => exact absurd ⟨by simp [IsDigits], hv⟩ h
  | cons b t ih =>
    rw [readMagnitude]
    by_cases hgap : b = Byte.underscore
    · subst hgap
      rw [if_pos rfl]
      refine ih hv fun ht => h ?_
      rw [isDigits_cons_iff, valueFrom_cons_of_none t Byte.hexValue?_underscore]
      exact ⟨⟨.inl rfl, ht.1⟩, ht.2⟩
    · rw [if_neg hgap]
      cases hvalue : Byte.hexValue? b with
      | none => exact ⟨_, rfl, by simp [Problem.kind]⟩
      | some d =>
        dsimp only
        by_cases hd : base ≤ d
        · rw [if_pos hd]
          exact ⟨_, rfl, by simp [Problem.kind]⟩
        · rw [if_neg hd]
          by_cases hguard : (magnitudeLimit - d.toUInt64) / base.toUInt64 < v
          · rw [if_pos hguard]
            exact ⟨_, rfl, by simp [Problem.kind]⟩
          · rw [if_neg hguard]
            rw [guard_iff (by omega) hbase] at hguard
            have hstep := toNat_step (v := v) (Nat.not_le.mp hd) hbase (by omega)
            refine ih (by omega) fun ht => h ?_
            rw [isDigits_cons_iff, valueFrom_cons_of_some t hvalue]
            rw [hstep] at ht
            exact ⟨⟨.inr ⟨d, by omega, hvalue⟩, ht.1⟩, ht.2⟩

/-- What is read of digits does not depend on what follows them. -/
theorem readMagnitude_append {w : UInt64} {seen' : Bool} (rest : Text)
    (h : readMagnitude raw base seen v t = .ok (seen', w)) :
    readMagnitude raw base seen v (t ++ rest) = readMagnitude raw base seen' w rest := by
  induction t generalizing seen v with
  | nil =>
    cases h
    rfl
  | cons b t ih =>
    rw [readMagnitude] at h
    rw [List.cons_append, readMagnitude]
    split at h
    · next hgap =>
      rw [if_pos hgap]
      exact ih h
    · next hgap =>
      rw [if_neg hgap]
      split at h
      · cases h
      · next d hvalue =>
        split at h
        · cases h
        · next hd =>
          split at h
          · cases h
          · next hguard =>
            simp only [if_neg hd, if_neg hguard]
            exact ih h

/-- The word that has been gathered is the number that the digits denote. -/
theorem readMagnitude_exact (hbase : base ≤ 16) {m : UInt64}
    (h : readMagnitude raw base false 0 t = .ok (seen, m)) :
    IsDigits base t ∧ m.toNat = valueOf base t ∧ valueOf base t ≤ 2 ^ 63 ∧
      (seen = true ↔ HasDigit t) := by
  by_cases hok : IsDigits base t ∧ valueFrom base (0 : UInt64).toNat t ≤ 2 ^ 63
  · rw [readMagnitude_eq_ok hbase hok.1 hok.2] at h
    cases h
    rw [UInt64.toNat_zero, valueFrom_zero] at hok ⊢
    exact ⟨hok.1, toNat_toUInt64_of_lt (by omega), hok.2, by simp [HasDigit]⟩
  · have herror : ∃ p, readMagnitude raw base false 0 t = .error p ∧
        p.kind ∈ [.syntaxError, .numericRangeError] :=
      readMagnitude_eq_error hbase (by simp) hok
    obtain ⟨p, hp, -⟩ := herror
    rw [hp] at h
    cases h

end Reading

/-! ### Sign, radix and suffix -/

theorem splitSign_cases (raw : Text) :
    (∃ t, raw = Byte.minus :: t ∧ splitSign raw = (true, t)) ∨
      (raw.head? ≠ some Byte.minus ∧ splitSign raw = (false, raw)) := by
  unfold splitSign
  split
  · next t => exact .inl ⟨t, rfl, rfl⟩
  · next hne =>
    refine .inr ⟨fun h => ?_, rfl⟩
    obtain ⟨t, rfl⟩ := List.head?_eq_some_iff.mp h
    exact hne t rfl

theorem splitSign_of_head?_ne {t : Text} (h : t.head? ≠ some Byte.minus) :
    splitSign t = (false, t) := by
  obtain ⟨t', rfl, -⟩ | ⟨-, hsplit⟩ := splitSign_cases t
  · exact absurd rfl h
  · exact hsplit

theorem dropSuffix_cases (t : Text) :
    (∃ u l, (l = 0x6C ∨ l = 0x4C) ∧ t = u ++ [l] ∧ dropSuffix t = u) ∨ dropSuffix t = t := by
  unfold dropSuffix
  by_cases h : t.getLast? = some 0x6C ∨ t.getLast? = some 0x4C
  · rw [if_pos h]
    left
    rcases h with h | h <;> obtain ⟨u, rfl⟩ := List.getLast?_eq_some_iff.mp h
    · exact ⟨u, _, .inl rfl, rfl, List.dropLast_concat⟩
    · exact ⟨u, _, .inr rfl, rfl, List.dropLast_concat⟩
  · rw [if_neg h]
    exact .inr rfl

theorem dropSuffix_append {t suffix : Text}
    (hsuffix : suffix = [] ∨ suffix = [0x6C] ∨ suffix = [0x4C]) (hl : (0x6C : UInt8) ∉ t)
    (hL : (0x4C : UInt8) ∉ t) : dropSuffix (t ++ suffix) = t := by
  unfold dropSuffix
  rcases hsuffix with rfl | rfl | rfl
  · rw [List.append_nil, if_neg]
    rintro (h | h)
    · exact hl (List.mem_of_getLast? h)
    · exact hL (List.mem_of_getLast? h)
  · simp
  · simp

theorem splitBase_hexadecimal {x : UInt8} {ds : Text} (hx : x = 0x78 ∨ x = 0x58) (hds : ds ≠ []) :
    splitBase (0x30 :: x :: ds) = (16, ds) := by
  obtain ⟨c, rest, rfl⟩ := List.exists_cons_of_ne_nil hds
  rw [splitBase, if_pos hx]

theorem splitBase_octal {ds : Text} (hds : ds ≠ [])
    (hx : ds.head? ≠ some 0x78 ∧ ds.head? ≠ some 0x58) : splitBase (0x30 :: ds) = (8, ds) := by
  obtain ⟨b, rest, rfl⟩ := List.exists_cons_of_ne_nil hds
  cases rest with
  | nil => rfl
  | cons c rest =>
    rw [splitBase, if_neg]
    simpa using hx

theorem splitBase_of_zeroAlone {t : Text} (h : ZeroAlone t) : splitBase t = (10, t) := by
  unfold splitBase
  split
  · next b c rest => cases h _ rfl
  · next b => cases h _ rfl
  · rfl

/-- A literal without sign and suffix says its radix at its start. -/
theorem splitBase_cases (t : Text) :
    (∃ x ds, (x = 0x78 ∨ x = 0x58) ∧ t = 0x30 :: x :: ds ∧ splitBase t = (16, ds)) ∨
      (∃ ds, ds ≠ [] ∧ t = 0x30 :: ds ∧ splitBase t = (8, ds)) ∨
      (ZeroAlone t ∧ splitBase t = (10, t)) := by
  unfold splitBase
  split
  · next b c rest =>
    split
    · next hx => exact .inl ⟨b, _, hx, rfl, rfl⟩
    · exact .inr (.inl ⟨_, by simp, rfl, rfl⟩)
  · next b => exact .inr (.inl ⟨_, by simp, rfl, rfl⟩)
  · next hmore hone =>
    refine .inr (.inr ⟨fun rest ht => ?_, rfl⟩)
    subst ht
    cases rest with
    | nil => rfl
    | cons b rest =>
      cases rest with
      | nil => exact absurd rfl (hone b)
      | cons c rest => exact absurd rfl (hmore b c rest)

theorem HasDigit.ne_nil {t : Text} (h : HasDigit t) : t ≠ [] := by
  obtain ⟨b, hb, -⟩ := h
  exact List.ne_nil_of_mem hb

theorem IsDigits.notMem {base : Nat} {t : Text} (h : IsDigits base t) {b : UInt8}
    (hgap : b ≠ Byte.underscore) (hb : Byte.hexValue? b = none) : b ∉ t := by
  intro hmem
  obtain hunderscore | ⟨d, -, hd⟩ := h b hmem
  · exact hgap hunderscore
  · rw [hb] at hd
    cases hd

/-- A text is written in a radix exactly if the digits after the mark of its base are digits of that
base, at least one of them, or the zero before octal digits. -/
theorem writes_iff {t ds : Text} {base m : Nat} (hsplit : splitBase t = (base, ds)) :
    (∃ radix, Writes radix t m ∧ (radix = .decimal → ZeroAlone t)) ↔
      IsDigits base ds ∧ (HasDigit ds ∨ base = 8) ∧ m = valueOf base ds := by
  constructor
  · rintro ⟨radix, hwrites, hdecimal⟩
    cases hwrites with
    | hexadecimal mark digits nonempty =>
      cases (splitBase_hexadecimal mark nonempty.ne_nil).symm.trans hsplit
      exact ⟨digits, .inl nonempty, rfl⟩
    | octal digits nonempty =>
      -- the mark of hexadecimal numbers is no octal digit
      have hx := digits.notMem (b := 0x78) (by decide) (by decide)
      have hX := digits.notMem (b := 0x58) (by decide) (by decide)
      cases (splitBase_octal nonempty
        ⟨fun h => hx (List.mem_of_head? h), fun h => hX (List.mem_of_head? h)⟩).symm.trans hsplit
      exact ⟨digits, .inr rfl, rfl⟩
    | decimal digits nonempty =>
      cases (splitBase_of_zeroAlone (hdecimal rfl)).symm.trans hsplit
      exact ⟨digits, .inl nonempty, rfl⟩
  · rintro ⟨hdigits, hsome, rfl⟩
    obtain ⟨x, ds', hx, rfl, hcase⟩ | ⟨ds', hds, rfl, hcase⟩ | ⟨halone, hcase⟩ := splitBase_cases t
    · cases hcase.symm.trans hsplit
      exact ⟨_, .hexadecimal hx hdigits (hsome.resolve_right (by simp)), by simp⟩
    · cases hcase.symm.trans hsplit
      exact ⟨_, .octal hdigits hds, by simp⟩
    · cases hcase.symm.trans hsplit
      exact ⟨_, .decimal hdigits (hsome.resolve_right (by simp)), fun _ => halone⟩

/-- A written number has no sign and no suffix. -/
theorem Writes.notMem {radix : Radix} {t : Text} {m : Nat} (h : Writes radix t m) {b : UInt8}
    (hb : b = Byte.minus ∨ b = 0x6C ∨ b = 0x4C) : b ∉ t := by
  have hplain : b ≠ Byte.underscore ∧ Byte.hexValue? b = none ∧ b ≠ 0x30 ∧ b ≠ 0x78 ∧ b ≠ 0x58 := by
    rcases hb with rfl | rfl | rfl <;> decide
  obtain ⟨hgap, hvalue, hzero, hx, hX⟩ := hplain
  cases h with
  | hexadecimal mark digits nonempty =>
    have hds := digits.notMem hgap hvalue
    rcases mark with rfl | rfl <;> simp [hzero, hx, hX, hds]
  | octal digits nonempty => simp [hzero, digits.notMem hgap hvalue]
  | decimal digits nonempty => exact digits.notMem hgap hvalue

/-! ### Decoding -/

theorem base_le_of_splitBase {t ds : Text} {base : Nat} (h : splitBase t = (base, ds)) :
    base ≤ 16 := by
  obtain ⟨x, ds', -, -, hcase⟩ | ⟨ds', -, -, hcase⟩ | ⟨-, hcase⟩ := splitBase_cases t
  all_goals
    cases hcase.symm.trans h
    omega

section Decoding

variable {raw t ds : Text} {base : Nat}

/-- What decides once the digits have been read. -/
theorem decodeInteger_of_digits (ht : dropSuffix (splitSign raw).2 = t)
    (hsplit : splitBase t = (base, ds)) (hdigits : IsDigits base ds)
    (hrange : valueOf base ds ≤ 2 ^ 63) :
    decodeInteger raw =
      if HasDigit ds ∨ base = 8 then
        if (splitSign raw).1 then .ok (-(valueOf base ds : Nat))
        else if valueOf base ds = 2 ^ 63 then .error (.integerRange raw)
        else .ok (valueOf base ds : Nat)
      else .error (.malformedInteger raw) := by
  have hread : readMagnitude raw base false 0 ds =
      .ok (false || ds.any (· != Byte.underscore),
        (valueFrom base (0 : UInt64).toNat ds).toUInt64) :=
    readMagnitude_eq_ok (base_le_of_splitBase hsplit) hdigits
      (by rwa [UInt64.toNat_zero, valueFrom_zero])
  rw [UInt64.toNat_zero, valueFrom_zero] at hread
  have hword := toNat_toUInt64_of_lt (n := valueOf base ds) (by omega)
  have hlimit : (valueOf base ds).toUInt64 = magnitudeLimit ↔ valueOf base ds = 2 ^ 63 := by
    rw [← UInt64.toNat_inj, hword, toNat_magnitudeLimit]
  have hnone : (!(false || ds.any (· != Byte.underscore)) && base != 8) = true ↔
      ¬(HasDigit ds ∨ base = 8) := by
    simp [HasDigit]
  unfold decodeInteger
  dsimp only
  rw [ht, hsplit]
  dsimp only
  rw [hread]
  simp only [bind, Except.bind, hword, hlimit, hnone, ite_not]

theorem decodeInteger_of_not_digits (ht : dropSuffix (splitSign raw).2 = t)
    (hsplit : splitBase t = (base, ds)) (h : ¬(IsDigits base ds ∧ valueOf base ds ≤ 2 ^ 63)) :
    ∃ p, decodeInteger raw = .error p ∧ p.kind ∈ [.syntaxError, .numericRangeError] := by
  have herror : ∃ p, readMagnitude raw base false 0 ds = .error p ∧
      p.kind ∈ [.syntaxError, .numericRangeError] :=
    readMagnitude_eq_error (base_le_of_splitBase hsplit) (by simp)
      (by rwa [UInt64.toNat_zero, valueFrom_zero])
  obtain ⟨p, hp, hkind⟩ := herror
  refine ⟨p, ?_, hkind⟩
  unfold decodeInteger
  dsimp only
  rw [ht, hsplit]
  dsimp only
  rw [hp]
  rfl

/-- A literal is decoded to the number after its sign and before its suffix, if 64 bits hold it. -/
theorem decodeInteger_eq_ok_iff (ht : dropSuffix (splitSign raw).2 = t) {n : Int} :
    decodeInteger raw = .ok n ↔ ∃ radix, ∃ m : Nat, Writes radix t m ∧
      (radix = .decimal → ZeroAlone t) ∧ n = (if (splitSign raw).1 then -(m : Int) else m) ∧
      -2 ^ 63 ≤ n ∧ n < 2 ^ 63 := by
  obtain ⟨base, ds, hsplit⟩ : ∃ base ds, splitBase t = (base, ds) := ⟨_, _, rfl⟩
  have hforms : (∃ radix, ∃ m : Nat, Writes radix t m ∧ (radix = .decimal → ZeroAlone t) ∧
      n = (if (splitSign raw).1 then -(m : Int) else m) ∧ -2 ^ 63 ≤ n ∧ n < 2 ^ 63) ↔
      IsDigits base ds ∧ (HasDigit ds ∨ base = 8) ∧
        n = (if (splitSign raw).1 then -(valueOf base ds : Int) else valueOf base ds) ∧
        -2 ^ 63 ≤ n ∧ n < 2 ^ 63 := by
    constructor
    · rintro ⟨radix, m, hwrites, hdecimal, hn⟩
      obtain ⟨hdigits, hsome, rfl⟩ := (writes_iff hsplit).mp ⟨radix, hwrites, hdecimal⟩
      exact ⟨hdigits, hsome, hn⟩
    · rintro ⟨hdigits, hsome, hn⟩
      obtain ⟨radix, hwrites, hdecimal⟩ := (writes_iff hsplit).mpr ⟨hdigits, hsome, rfl⟩
      exact ⟨radix, _, hwrites, hdecimal, hn⟩
  rw [hforms]
  by_cases hok : IsDigits base ds ∧ valueOf base ds ≤ 2 ^ 63
  · rw [decodeInteger_of_digits ht hsplit hok.1 hok.2]
    generalize valueOf base ds = m at hok
    by_cases hsome : HasDigit ds ∨ base = 8
    · rw [if_pos hsome]
      cases (splitSign raw).1 with
      | true =>
        simp only [if_pos, Except.ok.injEq, hok.1, hsome, true_and]
        omega
      | false =>
        simp only [Bool.false_eq_true, if_false, hok.1, hsome, true_and]
        split
        · simp only [reduceCtorEq, false_iff]
          omega
        · simp only [Except.ok.injEq]
          omega
    · rw [if_neg hsome]
      simp [hsome]
  · obtain ⟨p, hp, -⟩ := decodeInteger_of_not_digits ht hsplit hok
    rw [hp]
    simp only [reduceCtorEq, false_iff]
    rintro ⟨hdigits, -, hn, hlow, hhigh⟩
    refine hok ⟨hdigits, ?_⟩
    split at hn <;> omega

/-- A literal that is not decoded is refused. -/
theorem refused_decodeInteger (h : ∀ n, decodeInteger raw ≠ .ok n) :
    Refused (decodeInteger raw) [.syntaxError, .numericRangeError] := by
  obtain ⟨base, ds, hsplit⟩ :
      ∃ base ds, splitBase (dropSuffix (splitSign raw).2) = (base, ds) := ⟨_, _, rfl⟩
  by_cases hok : IsDigits base ds ∧ valueOf base ds ≤ 2 ^ 63
  · have hdecode := decodeInteger_of_digits rfl hsplit hok.1 hok.2
    split at hdecode
    · split at hdecode
      · exact absurd hdecode (h _)
      · split at hdecode
        · rw [hdecode]
          exact refused_error (by simp [Problem.kind])
        · exact absurd hdecode (h _)
    · rw [hdecode]
      exact refused_error (by simp [Problem.kind])
  · obtain ⟨p, hp, hkind⟩ := decodeInteger_of_not_digits rfl hsplit hok
    rw [hp]
    exact refused_error hkind

/-- A literal is its sign, what stands between sign and suffix, and its suffix. -/
theorem exists_sign_suffix (raw : Text) :
    ∃ sign suffix, raw = sign ++ dropSuffix (splitSign raw).2 ++ suffix ∧
      (sign = [] ∨ sign = [Byte.minus]) ∧ (suffix = [] ∨ suffix = [0x6C] ∨ suffix = [0x4C]) ∧
      ((splitSign raw).1 = true ↔ sign ≠ []) := by
  have hsuffix : ∃ suffix, (suffix = [] ∨ suffix = [0x6C] ∨ suffix = [0x4C]) ∧
      (splitSign raw).2 = dropSuffix (splitSign raw).2 ++ suffix := by
    obtain ⟨u, l, hl, hu, hdrop⟩ | hdrop := dropSuffix_cases (splitSign raw).2
    · exact ⟨[l], by simpa using hl, by rw [hdrop, hu]⟩
    · exact ⟨[], .inl rfl, by rw [hdrop, List.append_nil]⟩
  obtain ⟨suffix, hsuffix, hbody⟩ := hsuffix
  obtain ⟨u, hraw, hsplit⟩ | ⟨-, hsplit⟩ := splitSign_cases raw
  · refine ⟨[Byte.minus], suffix, ?_, .inr rfl, hsuffix, by simp [hsplit]⟩
    rw [List.append_assoc, ← hbody, hsplit]
    exact hraw
  · refine ⟨[], suffix, ?_, .inl rfl, hsuffix, by simp [hsplit]⟩
    rw [List.append_assoc, ← hbody, hsplit]
    rfl

/-- A minus sign before a written number is its sign, and a number does not start with one. -/
theorem Writes.splitSign_eq {radix : Radix} {m : Nat} (h : Writes radix t m) {sign suffix : Text}
    (hsign : sign = [] ∨ sign = [Byte.minus])
    (hsuffix : suffix = [] ∨ suffix = [0x6C] ∨ suffix = [0x4C]) :
    splitSign (sign ++ t ++ suffix) = (!sign.isEmpty, t ++ suffix) := by
  rcases hsign with rfl | rfl
  · apply splitSign_of_head?_ne
    intro hhead
    have hminus := List.mem_of_head? hhead
    rcases List.mem_append.mp hminus with hminus | hminus
    · exact h.notMem (.inl rfl) hminus
    · rcases hsuffix with rfl | rfl | rfl <;> simp [Byte.minus] at hminus
  · rfl

/-- The sign and the suffix are told by their bytes. -/
theorem decodeInteger_eq_ok_iff_denotes {n : Int} :
    decodeInteger raw = .ok n ↔ Denotes ZeroAlone raw n := by
  rw [decodeInteger_eq_ok_iff rfl]
  constructor
  · rintro ⟨radix, m, hwrites, hdecimal, hn, hrange⟩
    obtain ⟨sign, suffix, hraw, hsign, hsuffix, hnegative⟩ := exists_sign_suffix raw
    refine ⟨sign, _, suffix, radix, m, hraw, hsign, hsuffix, hwrites, hdecimal, ?_, hrange⟩
    rw [hn]
    simp only [hnegative, ite_not]
  · rintro ⟨sign, t, suffix, radix, m, rfl, hsign, hsuffix, hwrites, hdecimal, hn, hrange⟩
    have hdrop := dropSuffix_append hsuffix (hwrites.notMem (.inr (.inl rfl)))
      (hwrites.notMem (.inr (.inr rfl)))
    rw [hwrites.splitSign_eq hsign hsuffix]
    dsimp only
    rw [hdrop]
    refine ⟨radix, m, hwrites, hdecimal, ?_, hrange⟩
    rcases hsign with rfl | rfl <;> simpa using hn

theorem decodeUnsigned32_eq_ok_iff {what : Text} {n : Nat} :
    decodeUnsigned32 what raw = .ok n ↔ decodeInteger raw = .ok (n : Int) ∧ n < 2 ^ 32 := by
  unfold decodeUnsigned32
  cases h : decodeInteger raw with
  | error p => simp [bind, Except.bind]
  | ok m =>
    have hlimit : ((pow2 32 : Nat) : Int) = 2 ^ 32 := rfl
    simp only [bind, Except.bind, hlimit]
    split
    · simp only [Except.ok.injEq]
      omega
    · simp only [reduceCtorEq, Except.ok.injEq, false_iff]
      omega

/-- How an integer literal is decoded, whatever its bytes. -/
structure DecodedExactly (raw : Text) : Prop where
  denoted : ∀ n, decodeInteger raw = .ok n ↔ Denotes ZeroAlone raw n
  refused : (∀ n, ¬Denotes ZeroAlone raw n) →
    Refused (decodeInteger raw) [.syntaxError, .numericRangeError]
  /-- After every part of the digits that has been read, the word is the number that this part
  denotes, and reading goes on from there; so the word never wraps. -/
  gathered : ∀ base read rest seen m, base ≤ 16 →
    readMagnitude raw base false 0 read = .ok (seen, m) →
      m.toNat = valueOf base read ∧ m.toNat ≤ 2 ^ 63 ∧
        readMagnitude raw base false 0 (read ++ rest) = readMagnitude raw base seen m rest
  unsigned : ∀ what n,
    decodeUnsigned32 what raw = .ok n ↔ decodeInteger raw = .ok (n : Int) ∧ n < 2 ^ 32

/-- An integer literal is decoded to the number that it denotes, or refused. -/
theorem decodedExactly (raw : Text) : DecodedExactly raw where
  denoted _ := decodeInteger_eq_ok_iff_denotes
  refused h := refused_decodeInteger fun n hn => h n (decodeInteger_eq_ok_iff_denotes.mp hn)
  gathered base read rest seen m hbase h := by
    obtain ⟨-, hvalue, hrange, -⟩ := readMagnitude_exact hbase h
    exact ⟨hvalue, hvalue ▸ hrange, readMagnitude_append rest h⟩
  unsigned _ _ := decodeUnsigned32_eq_ok_iff

/-- Decimal digits after a zero that are not all octal have no value, although they are no octal
number and denote one in the decimal radix. -/
theorem exists_refused_decimal :
    Denotes (fun t => ∀ m, ¬Writes .octal t m) "08" 8 ∧
      decodeInteger "08" = .error (.malformedInteger "08") := by
  have htext : ("08" : Text) = [0x30, 0x38] := by decide
  have hdigits : IsDigits 10 [0x30, 0x38] := by
    rw [isDigits_cons_iff, isDigits_cons_iff]
    exact ⟨.inr ⟨0, by decide, rfl⟩, .inr ⟨8, by decide, rfl⟩, by simp [IsDigits]⟩
  have hvalue : valueOf 10 [0x30, 0x38] = 8 := by decide
  rw [htext]
  refine ⟨⟨[], [0x30, 0x38], [], .decimal, 8, rfl, .inl rfl, .inl rfl, ?_, fun _ m hm => ?_, rfl,
    by decide, by decide⟩, by decide⟩
  · exact hvalue ▸ .decimal hdigits (by decide)
  · cases hm with
    | octal digits nonempty =>
      obtain h | ⟨d, hd, h⟩ := digits 0x38 List.mem_cons_self
      · cases h
      · exact absurd hd (by rw [← Option.some.inj h]; decide)

end Decoding

end AvroIdl.Literal
