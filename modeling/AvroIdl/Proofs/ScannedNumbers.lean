import AvroIdl.Proofs.ScannedPieces

/-!
# Numbers scanned again

How far a number goes is told from its own bytes: from its base, the digits before and after its
dot, its exponent and the letter that may end it. A number that stands before anything at all is
read in the same way before whitespace.
-/
namespace AvroIdl.Lexeme

/-- The text is empty or begins with whitespace. -/
def Blank (t : Text) : Prop := ∀ b ∈ t.head?, Byte.isSpace b = true

/-- A letter that may end a number. -/
def isSuffix (b : UInt8) : Bool :=
  b == 0x6C || b == 0x4C || b == 0x66 || b == 0x46 || b == 0x64 || b == 0x44

section Space

variable {b : UInt8}

theorem isNamePart_of_isSpace (h : Byte.isSpace b = true) : isNamePart b = false := by
  grind [Byte.isSpace, isNamePart, Byte.isAlpha, Byte.isUpper, Byte.isLower, Byte.isDigit,
    Byte.underscore, Byte.minus]

theorem isNameStart_of_isSpace (h : Byte.isSpace b = true) : isNameStart b = false := by
  grind [Byte.isSpace, isNameStart, Byte.isAlpha, Byte.isUpper, Byte.isLower, Byte.underscore]

theorem isAlpha_of_isSpace (h : Byte.isSpace b = true) : Byte.isAlpha b = false := by
  grind [Byte.isSpace, Byte.isAlpha, Byte.isUpper, Byte.isLower]

theorem isSuffix_of_isSpace (h : Byte.isSpace b = true) : isSuffix b = false := by
  grind [Byte.isSpace, isSuffix]

end Space

/-- A byte at which the digits of a number end wherever they are. -/
structure EndsDigits (b : UInt8) : Prop where
  digit : isDigitOrGap b = false
  dot : b ≠ Byte.dot
  exponent : b ≠ 0x65 ∧ b ≠ 0x45
  sign : b ≠ 0x2B ∧ b ≠ 0x2D
  base : b ≠ 0x78 ∧ b ≠ 0x58

theorem endsDigits_of_isSpace {b : UInt8} (h : Byte.isSpace b = true) : EndsDigits b := by
  constructor <;>
    grind [Byte.isSpace, isDigitOrGap, Byte.isDigit, Byte.underscore, Byte.dot]

theorem endsDigits_of_isSuffix {b : UInt8} (h : isSuffix b = true) : EndsDigits b := by
  constructor <;>
    grind [isSuffix, isDigitOrGap, Byte.isDigit, Byte.underscore, Byte.dot]

/-! ### Runs -/

theorem run_le_length (p : UInt8 → Bool) (s : Text) : run p s ≤ s.length :=
  (List.takeWhile_prefix p).length_le

theorem run_eq_zero_iff {p : UInt8 → Bool} {s : Text} :
    run p s = 0 ↔ ∀ b ∈ s.head?, p b = false := by
  cases s with
  | nil => simp [run]
  | cons b s =>
    cases hb : p b <;> simp [run, hb]

/-- A run is all of a part exactly if the part has only bytes of the class and goes no further. -/
theorem run_append_iff {p : UInt8 → Bool} {w t : Text} :
    run p (w ++ t) = w.length ↔ (∀ b ∈ w, p b = true) ∧ ∀ b ∈ t.head?, p b = false := by
  induction w with
  | nil => simpa using run_eq_zero_iff
  | cons b w ih =>
    cases hb : p b with
    | false => simp [run, hb]
    | true =>
      have hstep : run p (b :: (w ++ t)) = run p (w ++ t) + 1 := by simp [run, hb]
      simp [hstep, ih, hb]

/-! ### The digits of a number -/

/-- The start of a hexadecimal number. -/
def HasBase (s : Text) : Prop := ∃ rest, s = 0x30 :: 0x78 :: rest ∨ s = 0x30 :: 0x58 :: rest

/-- The bytes of a fraction: a dot with digits after it, unless a name follows the dot. -/
def fraction : Text → Nat
  | [] => 0
  | b :: s => if b = Byte.dot ∧ !s.head?.any isNameStart then 1 + run isDigitOrGap s else 0

/-- The bytes of a plus or minus sign. -/
def sign (s : Text) : Nat := if s.head? = some 0x2B ∨ s.head? = some 0x2D then 1 else 0

/-- The bytes of an exponent, with its letter and sign. -/
def exponent : Text → Nat
  | [] => 0
  | b :: s =>
    if b = 0x65 ∨ b = 0x45 then 1 + sign s + run Byte.isDigit (s.drop (sign s)) else 0

theorem digits_of_hasBase {s : Text} (h : HasBase s) :
    digits s =
      (false, 2 + run (fun b => Byte.isHexDigit b || b == Byte.underscore) (s.drop 2)) := by
  obtain ⟨rest, rfl | rfl⟩ := h
  all_goals rfl

/-- Whether a number has a fraction after its whole part, and the number of bytes up to there. -/
def withFraction (s : Text) (whole : Nat) : Bool × Nat :=
  match s.drop whole with
  | b :: rest =>
    if b = Byte.dot ∧ !rest.head?.any isNameStart then (true, whole + 1 + run isDigitOrGap rest)
    else (false, whole)
  | [] => (false, whole)

/-- The same with the exponent. -/
def withExponent (s : Text) (before : Bool × Nat) : Bool × Nat :=
  match s.drop before.2 with
  | b :: rest =>
    if b = 0x65 ∨ b = 0x45 then
      (true, before.2 + 1 + sign rest + run Byte.isDigit (rest.drop (sign rest)))
    else before
  | [] => before

theorem withFraction_eq (s : Text) (whole : Nat) :
    withFraction s whole =
      (decide (0 < fraction (s.drop whole)), whole + fraction (s.drop whole)) := by
  unfold withFraction
  cases s.drop whole with
  | nil => rfl
  | cons b rest =>
    simp only [fraction]
    split <;> simp [Nat.add_assoc, Nat.one_add]

theorem withExponent_eq (s : Text) (before : Bool × Nat) :
    withExponent s before =
      (before.1 || decide (0 < exponent (s.drop before.2)),
        before.2 + exponent (s.drop before.2)) := by
  unfold withExponent
  cases s.drop before.2 with
  | nil => simp [exponent]
  | cons b rest =>
    simp only [exponent]
    split
    · have hpos : 0 < 1 + sign rest + run Byte.isDigit (rest.drop (sign rest)) := by omega
      rw [decide_eq_true hpos, Bool.or_true]
      simp only [Nat.add_assoc]
    · simp

/-- Digits without a base are told part by part. -/
theorem digits_of_not_hasBase {s : Text} (h : ¬HasBase s) :
    digits s = withExponent s (withFraction s (run isDigitOrGap s)) := by
  unfold digits
  split
  · next hex => exact absurd ⟨hex, .inl rfl⟩ h
  · next hex => exact absurd ⟨hex, .inr rfl⟩ h
  · rfl

section Digits

variable {w t r : Text}

theorem fraction_le_length (s : Text) : fraction s ≤ s.length := by
  cases s with
  | nil => exact Nat.le_refl _
  | cons b s =>
    have hrun := run_le_length isDigitOrGap s
    simp only [fraction, List.length_cons]
    split <;> omega

theorem sign_le_length (s : Text) : sign s ≤ s.length := by
  unfold sign
  cases s with
  | nil => simp
  | cons b s => split <;> simp

theorem exponent_le_length (s : Text) : exponent s ≤ s.length := by
  cases s with
  | nil => exact Nat.le_refl _
  | cons b s =>
    have hsign := sign_le_length s
    have hrun := run_le_length Byte.isDigit (s.drop (sign s))
    rw [List.length_drop] at hrun
    simp only [exponent, List.length_cons]
    split <;> omega

theorem digits_le_length (s : Text) : (digits s).2 ≤ s.length := by
  by_cases h : HasBase s
  · rw [digits_of_hasBase h]
    have hrun := run_le_length (fun b => Byte.isHexDigit b || b == Byte.underscore) (s.drop 2)
    obtain ⟨rest, rfl | rfl⟩ := h
    all_goals
      simp only [List.drop_succ_cons, List.drop_zero, List.length_cons] at hrun ⊢
      omega
  · rw [digits_of_not_hasBase h, withExponent_eq, withFraction_eq]
    have hwhole := run_le_length isDigitOrGap s
    generalize run isDigitOrGap s = whole at *
    have hfraction := fraction_le_length (s.drop whole)
    generalize fraction (s.drop whole) = n at *
    have hexponent := exponent_le_length (s.drop (whole + n))
    simp only [List.length_drop] at *
    omega

/-- A run that is all of a part is so again before a byte that is not of the class. -/
theorem run_append {p : UInt8 → Bool} (h : run p (w ++ t) = w.length)
    (hr : ∀ b ∈ r.head?, p b = false) : run p (w ++ r) = w.length :=
  run_append_iff.mpr ⟨(run_append_iff.mp h).1, hr⟩

theorem EndsDigits.not_digit {b : UInt8} (h : EndsDigits b) : Byte.isDigit b = false := by
  have hdigit := h.digit
  rw [isDigitOrGap, Bool.or_eq_false_iff] at hdigit
  exact hdigit.1

theorem sign_eq_zero (hr : ∀ b ∈ r.head?, EndsDigits b) : sign r = 0 := by
  rw [sign, if_neg]
  rintro (hplus | hminus)
  · exact (hr _ hplus).sign.1 rfl
  · exact (hr _ hminus).sign.2 rfl

/-- What follows an exponent does not matter as long as it ends the digits. -/
theorem exponent_append (h : exponent (w ++ t) = w.length) (hr : ∀ b ∈ r.head?, EndsDigits b) :
    exponent (w ++ r) = w.length := by
  have hstops : ∀ b ∈ r.head?, Byte.isDigit b = false := fun b hb => (hr b hb).not_digit
  cases w with
  | nil =>
    cases r with
    | nil => rfl
    | cons b r =>
      have hb := (hr b rfl).exponent
      simp [exponent, hb]
  | cons b w =>
    simp only [List.cons_append, exponent, List.length_cons] at h ⊢
    split at h
    · next hb =>
      rw [if_pos hb]
      cases w with
      | nil =>
        have hrun : run Byte.isDigit r = 0 := run_eq_zero_iff.mpr hstops
        simp [sign_eq_zero hr, hrun]
      | cons c w =>
        have hsame : sign (c :: w ++ r) = sign (c :: w ++ t) := rfl
        rw [hsame]
        generalize hsign : sign (c :: w ++ t) = n at h
        have hn : n ≤ 1 := by
          rw [← hsign, sign]
          split <;> omega
        have hdrop : ∀ u : Text, (c :: w ++ u).drop n = (c :: w).drop n ++ u := fun u =>
          List.drop_append_of_le_length (by simp; omega)
        rw [hdrop] at h ⊢
        have hrun : run Byte.isDigit ((c :: w).drop n ++ t) = ((c :: w).drop n).length := by
          simp only [List.length_drop, List.length_cons] at h ⊢
          omega
        rw [run_append hrun hstops]
        omega
    · omega

/-- A dot with nothing of an exponent after it is no exponent. -/
theorem ne_dot_of_exponent {b : UInt8} {s y : Text} (h : exponent (b :: s) = (b :: y).length) :
    b ≠ Byte.dot := by
  rintro rfl
  simp [exponent, Byte.dot] at h

/-- A part of a text that is followed by another one is followed by the same byte whatever comes
after that. -/
theorem head?_append_append {y : Text} (hy : y ≠ []) : (y ++ t).head? = (y ++ r).head? := by
  cases y with
  | nil => exact absurd rfl hy
  | cons b y => rfl

/-- Neither the part that follows nor what comes after it begins with a byte of the class. -/
theorem forall_head?_append {p : UInt8 → Bool} {y : Text}
    (hy : ∀ b ∈ (y ++ t).head?, p b = false) (hr : ∀ b ∈ r.head?, p b = false) :
    ∀ b ∈ (y ++ r).head?, p b = false := by
  cases y with
  | nil => exact hr
  | cons b y => exact hy

/-- What may stand after the digits of a number instead of what stands there: a byte that ends them,
and no letter unless it stands there already. -/
def Continues (t r : Text) : Prop :=
  ∀ b ∈ r.head?, EndsDigits b ∧ (isNameStart b = true → t.head? = some b)

theorem fraction_append {x y : Text} (hx : fraction (x ++ (y ++ t)) = x.length)
    (hy : exponent (y ++ t) = y.length) (hr : Continues t r) :
    fraction (x ++ (y ++ r)) = x.length := by
  cases x with
  | nil =>
    cases y with
    | nil =>
      cases r with
      | nil => rfl
      | cons b r =>
        have hb := (hr b rfl).1.dot
        simp [fraction, hb]
    | cons b y =>
      have hb : b ≠ Byte.dot := ne_dot_of_exponent hy
      simp [fraction, hb]
  | cons b x =>
    simp only [List.cons_append, fraction, List.length_cons] at hx ⊢
    split at hx
    · next hb =>
      obtain ⟨rfl, hname⟩ := hb
      have hrun : run isDigitOrGap (x ++ (y ++ t)) = x.length := by omega
      have hafter := forall_head?_append (run_append_iff.mp hrun).2 fun b hb => (hr b hb).1.digit
      have hname' : (!(x ++ (y ++ r)).head?.any isNameStart) = true := by
        by_cases hne : x ++ y = []
        · obtain ⟨rfl, rfl⟩ := List.append_eq_nil_iff.mp hne
          cases r with
          | nil => rfl
          | cons c r =>
            cases hc : isNameStart c with
            | false => simp [hc]
            | true =>
              have ht := (hr c rfl).2 hc
              simp [ht, hc] at hname
        · rwa [← List.append_assoc, ← head?_append_append (t := t) hne, List.append_assoc]
      rw [if_pos ⟨rfl, hname'⟩, run_append hrun hafter]
      omega
    · omega

theorem two_le_digits {s : Text} (h : HasBase s) : 2 ≤ (digits s).2 := by
  rw [digits_of_hasBase h]
  exact Nat.le_add_right _ _

theorem hasBase_append_iff (h : (digits (w ++ t)).2 = w.length) (hr : Continues t r) :
    HasBase (w ++ r) ↔ HasBase (w ++ t) := by
  match w with
  | [] =>
    refine iff_of_false ?_ fun hbase => ?_
    · rintro ⟨rest, rfl | rfl⟩
      all_goals exact absurd (hr _ rfl).1.digit (by decide)
    · have htwo := two_le_digits hbase
      simp only [List.nil_append, List.length_nil] at h htwo
      omega
  | [b] =>
    refine iff_of_false ?_ fun hbase => ?_
    · rintro ⟨rest, hrest | hrest⟩
      all_goals
        obtain ⟨-, rfl⟩ := List.cons.inj hrest
        have hbase := (hr _ rfl).1.base
      · exact hbase.1 rfl
      · exact hbase.2 rfl
    · have htwo := two_le_digits hbase
      simp only [List.length_singleton] at h
      omega
  | b :: c :: w =>
    constructor
    all_goals
      rintro ⟨rest, hrest | hrest⟩
      all_goals
        simp only [List.cons_append, List.cons.injEq] at hrest
        obtain ⟨rfl, rfl, -⟩ := hrest
      · exact ⟨_, .inl rfl⟩
      · exact ⟨_, .inr rfl⟩

theorem exists_parts {i j k : Nat} (h : w.length = i + j + k) :
    ∃ a x y, w = a ++ (x ++ y) ∧ a.length = i ∧ x.length = j ∧ y.length = k := by
  refine ⟨w.take i, (w.drop i).take j, (w.drop i).drop j, by simp, ?_, ?_, ?_⟩
  all_goals
    simp only [List.length_take, List.length_drop]
    omega

theorem isDigit_or_isNameStart {b : UInt8}
    (h : (Byte.isHexDigit b || b == Byte.underscore) = true) :
    Byte.isDigit b = true ∨ isNameStart b = true := by
  grind [Byte.isHexDigit, Byte.hexValue?, isNameStart, Byte.isAlpha, Byte.isUpper, Byte.isLower]

/-- The digits after a base go on as far as before. -/
theorem digits_append_of_hasBase {isFloat : Bool} (h : digits (w ++ t) = (isFloat, w.length))
    (hbase : HasBase (w ++ t)) (hr : Continues t r) : digits (w ++ r) = (isFloat, w.length) := by
  have hbase' := (hasBase_append_iff (congrArg Prod.snd h) hr).mpr hbase
  have htwo : 2 ≤ w.length := by simpa [h] using two_le_digits hbase
  have hdrop : ∀ u : Text, (w ++ u).drop 2 = w.drop 2 ++ u := fun u =>
    List.drop_append_of_le_length htwo
  rw [digits_of_hasBase hbase, hdrop, Prod.mk.injEq] at h
  rw [digits_of_hasBase hbase', hdrop, Prod.mk.injEq]
  refine ⟨h.1, ?_⟩
  have hrun : run (fun b => Byte.isHexDigit b || b == Byte.underscore) (w.drop 2 ++ t) =
      (w.drop 2).length := by
    rw [List.length_drop]
    omega
  have hstops : ∀ b ∈ r.head?, (Byte.isHexDigit b || b == Byte.underscore) = false := by
    intro b hb
    obtain ⟨hends, hname⟩ := hr b hb
    rw [← Bool.not_eq_true]
    intro hhex
    rcases isDigit_or_isNameStart hhex with hdigit | hstart
    · exact absurd (hends.not_digit.symm.trans hdigit) Bool.false_ne_true
    · exact absurd (((run_append_iff.mp hrun).2 b (hname hstart)).symm.trans hhex)
        Bool.false_ne_true
  rw [run_append hrun hstops, List.length_drop]
  omega

/-- The digits before a dot, those after it and an exponent go on as far as before. -/
theorem digits_append_of_not_hasBase {isFloat : Bool}
    (h : digits (w ++ t) = (isFloat, w.length)) (hbase : ¬HasBase (w ++ t))
    (hr : Continues t r) : digits (w ++ r) = (isFloat, w.length) := by
  have hbase' := (hasBase_append_iff (congrArg Prod.snd h) hr).not.mpr hbase
  rw [digits_of_not_hasBase hbase, withExponent_eq, withFraction_eq] at h
  rw [digits_of_not_hasBase hbase', withExponent_eq, withFraction_eq]
  dsimp only at h ⊢
  obtain ⟨a, x, y, rfl, ha, hx, hy⟩ := exists_parts (Prod.mk.inj h).2.symm
  have htail : ∀ u : Text, ((a ++ (x ++ y)) ++ u).drop a.length = x ++ y ++ u ∧
      ((a ++ (x ++ y)) ++ u).drop (a.length + x.length) = y ++ u := fun u => by
    rw [← List.drop_drop, List.append_assoc, List.drop_left, List.append_assoc, List.drop_left]
    exact ⟨rfl, rfl⟩
  rw [← ha, (htail t).1] at hx
  rw [← ha, (htail t).1, ← hx, (htail t).2] at hy
  rw [← ha, (htail t).1, ← hx, (htail t).2, ← hy] at h
  rw [List.append_assoc] at ha
  have hafter := forall_head?_append (run_append_iff.mp ha.symm).2 fun b hb => (hr b hb).1.digit
  have hwhole := run_append ha.symm hafter
  rw [List.append_assoc] at hx
  have hfraction := fraction_append hx.symm hy.symm hr
  have hexponent := exponent_append hy.symm fun b hb => (hr b hb).1
  rw [← List.append_assoc] at hwhole hfraction
  rw [hwhole, (htail r).1, hfraction, (htail r).2, hexponent]
  exact h

/-- What follows the digits of a number does not matter as long as it ends them. -/
theorem digits_append {isFloat : Bool} (h : digits (w ++ t) = (isFloat, w.length))
    (hr : Continues t r) : digits (w ++ r) = (isFloat, w.length) := by
  by_cases hbase : HasBase (w ++ t)
  · exact digits_append_of_hasBase h hbase hr
  · exact digits_append_of_not_hasBase h hbase hr

theorem Blank.continues (h : Blank r) (t : Text) : Continues t r := by
  intro b hb
  have hspace := h b hb
  refine ⟨endsDigits_of_isSpace hspace, fun hname => ?_⟩
  rw [isNameStart_of_isSpace hspace] at hname
  cases hname

/-- Whether a number is a float if a letter ends it after its digits. -/
def ending (isFloat : Bool) (b : UInt8) : Option Bool :=
  if !isFloat ∧ (b = 0x6C ∨ b = 0x4C) then some false
  else if b = 0x66 ∨ b = 0x46 ∨ b = 0x64 ∨ b = 0x44 then some true
  else none

theorem numeral_eq (s : Text) :
    numeral s =
      match (s.drop (digits s).2).head?.bind (ending (digits s).1) with
      | some isFloat => (isFloat, (digits s).2 + 1)
      | none => digits s := by
  unfold numeral
  dsimp only
  cases s.drop (digits s).2 with
  | nil => rfl
  | cons b rest =>
    simp only [List.head?_cons, Option.bind_some, ending]
    split
    · rfl
    · split <;> rfl

theorem isSuffix_of_ending {isFloat isFloat' : Bool} {b : UInt8}
    (h : ending isFloat b = some isFloat') : isSuffix b = true := by
  grind [ending, isSuffix]

theorem numeral_le_length (s : Text) : (numeral s).2 ≤ s.length := by
  have hdigits := digits_le_length s
  rw [numeral_eq]
  split
  · next hletter =>
    obtain ⟨b, hb, -⟩ := Option.bind_eq_some_iff.mp hletter
    obtain ⟨rest, hrest⟩ := List.head?_eq_some_iff.mp hb
    have hlength := congrArg List.length hrest
    rw [List.length_drop, List.length_cons] at hlength
    dsimp only
    omega
  · exact hdigits

/-- Whitespace may stand after a number instead of what stands there. -/
theorem numeral_append {isFloat : Bool} (h : numeral (w ++ t) = (isFloat, w.length))
    (hr : Blank r) : numeral (w ++ r) = (isFloat, w.length) := by
  rw [numeral_eq] at h
  split at h
  · next isFloat' hletter =>
    -- the last byte of the number is a letter, with the digits before it
    obtain ⟨rfl, hlength⟩ := Prod.mk.inj h
    obtain ⟨before, b, rfl⟩ : ∃ before b, w = before ++ [b] := by
      refine ⟨w.dropLast, w.getLast ?_, (List.dropLast_append_getLast _).symm⟩
      rintro rfl
      simp at hlength
    have hn : (digits (before ++ ([b] ++ t))).2 = before.length := by simpa using hlength
    rw [List.append_assoc] at hletter
    rw [hn, List.drop_left] at hletter
    have hcontinues : Continues ([b] ++ t) ([b] ++ r) := by
      intro c hc
      cases hc
      exact ⟨endsDigits_of_isSuffix (isSuffix_of_ending hletter), fun _ => rfl⟩
    have hpair : digits (before ++ ([b] ++ t)) =
        ((digits (before ++ ([b] ++ t))).1, before.length) := Prod.ext rfl hn
    have hdigits : digits (before ++ ([b] ++ r)) = digits (before ++ ([b] ++ t)) :=
      (digits_append hpair hcontinues).trans hpair.symm
    rw [numeral_eq, List.append_assoc, hdigits, hn, List.drop_left]
    have hsame : ([b] ++ r).head?.bind (ending (digits (before ++ ([b] ++ t))).1) =
        some isFloat' := hletter
    rw [hsame]
    simp
  · next hletter =>
    have hdigits := digits_append h (hr.continues t)
    rw [numeral_eq, hdigits]
    have hnone : (((w ++ r).drop w.length).head?.bind (ending isFloat)) = none := by
      rw [List.drop_left, Option.bind_eq_none_iff]
      intro b hb
      refine Option.eq_none_iff_forall_ne_some.mpr fun isFloat' hending => ?_
      have hspace := isSuffix_of_isSpace (hr b hb)
      rw [isSuffix_of_ending hending] at hspace
      cases hspace
    dsimp only
    rw [hnone]

end Digits

/-! ### Numbers -/

/-- A number after a sign of the given length. -/
def signedNumber (sign : Nat) (s : Text) : Shape × Nat :=
  let body := s.drop sign
  if body.head? = some 0x49 ∨ body.head? = some 0x4E then
    let n := sign + run Byte.isAlpha body
    let text := s.take n
    if text = "-Infinity" ∨ text = "-NaN" then (.token .float text false, n)
    else (.problem (.malformedNumber text) 0, n)
  else
    let (isFloat, length) := numeral body
    let junk := run isNamePart (body.drop length)
    let n := sign + length + junk
    let text := s.take n
    if junk = 0 then (.token (if isFloat then .float else .integer) text false, n)
    else (.problem (.malformedNumber text) 0, n)

theorem number_eq (s : Text) :
    number s = signedNumber (if s.head? = some Byte.minus then 1 else 0) s := rfl

section Numbers

variable {b : UInt8} {v w t r text : Text} {kind : Token.Kind} {escaped : Bool} {n sign : Nat}

theorem signedNumber_le_length {s : Text} (hsign : sign ≤ s.length) :
    (signedNumber sign s).2 ≤ s.length := by
  have hword := run_le_length Byte.isAlpha (s.drop sign)
  have hnumeral := numeral_le_length (s.drop sign)
  have hjunk := run_le_length isNamePart ((s.drop sign).drop (numeral (s.drop sign)).2)
  simp only [List.length_drop] at hword hnumeral hjunk
  unfold signedNumber
  dsimp only
  split
  · split
    all_goals
      dsimp only
      omega
  · split
    all_goals
      dsimp only
      omega

theorem number_le_length (s : Text) : (number s).2 ≤ s.length := by
  rw [number_eq]
  apply signedNumber_le_length
  cases s with
  | nil => simp
  | cons b s => split <;> simp

theorem signedNumber_append (before : Text) (hv : v ≠ [])
    (h : signedNumber before.length (before ++ (v ++ t)) =
      (.token kind text escaped, before.length + v.length)) (hr : Blank r) :
    signedNumber before.length (before ++ (v ++ r)) =
      (.token kind text escaped, before.length + v.length) := by
  have htext : ∀ u : Text, (before ++ (v ++ u)).take (before.length + v.length) = before ++ v := by
    intro u
    rw [← List.append_assoc, ← List.length_append, List.take_left]
  unfold signedNumber at h ⊢
  simp only [List.drop_left] at h ⊢
  rw [← head?_append_append hv (t := t)]
  split at h
  · next hword =>
    rw [if_pos hword]
    have hn : before.length + run Byte.isAlpha (v ++ t) = before.length + v.length := by
      split at h
      · exact (Prod.mk.inj h).2
      · cases h
    have hrun : run Byte.isAlpha (v ++ t) = v.length := Nat.add_left_cancel hn
    have hagain : run Byte.isAlpha (v ++ r) = v.length :=
      run_append hrun fun b hb => isAlpha_of_isSpace (hr b hb)
    rw [hrun, htext] at h
    rw [hagain, htext]
    exact h
  · next hword =>
    rw [if_neg hword]
    split at h
    · next hjunk =>
      have hlength : (numeral (v ++ t)).2 = v.length := by
        have hn := (Prod.mk.inj h).2
        omega
      have hagain : numeral (v ++ r) = ((numeral (v ++ t)).1, v.length) :=
        numeral_append (Prod.ext rfl hlength) hr
      have hnone : run isNamePart r = 0 :=
        run_eq_zero_iff.mpr fun b hb => isNamePart_of_isSpace (hr b hb)
      rw [hjunk, hlength, Nat.add_zero, htext] at h
      simp only [hagain, List.drop_left, hnone, Nat.add_zero, htext, if_true]
      exact h
    · cases h

/-- Whitespace may stand after a number, unless that is a lone minus sign. -/
theorem number_append (hw : w ≠ [] ∨ b ≠ Byte.minus)
    (h : number (b :: (w ++ t)) = (.token kind text escaped, w.length + 1)) (hr : Blank r) :
    number (b :: (w ++ r)) = (.token kind text escaped, w.length + 1) := by
  rw [number_eq] at h ⊢
  simp only [List.head?_cons, Option.some.injEq] at h ⊢
  by_cases hb : b = Byte.minus
  · rw [if_pos hb, Nat.add_comm] at h
    rw [if_pos hb, Nat.add_comm]
    exact signedNumber_append [b] (hw.resolve_right (not_not.mpr hb)) h hr
  · rw [if_neg hb] at h ⊢
    have hbare : signedNumber ([] : Text).length ([] ++ (b :: w ++ t)) =
        (.token kind text escaped, ([] : Text).length + (b :: w).length) := by
      simpa using h
    simpa using signedNumber_append [] (List.cons_ne_nil b w) hbare hr

end Numbers

end AvroIdl.Lexeme
