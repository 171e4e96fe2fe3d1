import AvroIdl.Build.Type
import Mathlib.Data.Nat.Digits.Defs

/-!
# Digits in literals

What digits of a base denote, the first one being the highest, and what it means that a literal is
refused.
-/
namespace AvroIdl

namespace Byte

theorem isDigit_iff {b : UInt8} : isDigit b = true ↔ 0x30 ≤ b.toNat ∧ b.toNat ≤ 0x39 := by
  simp [isDigit, UInt8.le_iff_toNat_le]

theorem isOctalDigit_iff_toNat {b : UInt8} :
    isOctalDigit b = true ↔ 0x30 ≤ b.toNat ∧ b.toNat ≤ 0x37 := by
  simp [isOctalDigit, UInt8.le_iff_toNat_le]

/-- The three rows of hexadecimal digits. -/
theorem hexValue?_eq_some {b : UInt8} {d : Nat} (h : hexValue? b = some d) :
    (0x30 ≤ b.toNat ∧ b.toNat ≤ 0x39 ∧ d = b.toNat - 0x30) ∨
      (0x61 ≤ b.toNat ∧ b.toNat ≤ 0x66 ∧ d = b.toNat - 0x61 + 10) ∨
      (0x41 ≤ b.toNat ∧ b.toNat ≤ 0x46 ∧ d = b.toNat - 0x41 + 10) := by
  simp only [hexValue?, isDigit_iff, Bool.and_eq_true, decide_eq_true_eq, UInt8.le_iff_toNat_le,
    UInt8.reduceToNat] at h
  split at h
  · next hrow => exact .inl ⟨hrow.1, hrow.2, (Option.some.inj h).symm⟩
  · split at h
    · next hrow => exact .inr (.inl ⟨hrow.1, hrow.2, (Option.some.inj h).symm⟩)
    · split at h
      · next hrow => exact .inr (.inr ⟨hrow.1, hrow.2, (Option.some.inj h).symm⟩)
      · cases h

theorem hexValue?_lt {b : UInt8} {d : Nat} (h : hexValue? b = some d) : d < 16 := by
  obtain h | h | h := hexValue?_eq_some h <;> omega

theorem hexValue?_of_isOctalDigit {b : UInt8} (h : isOctalDigit b = true) :
    hexValue? b = some (b.toNat - 0x30) := by
  rw [isOctalDigit_iff_toNat] at h
  rw [hexValue?, if_pos (isDigit_iff.mpr (by omega))]

/-- The octal digits are the hexadecimal ones below eight. -/
theorem isOctalDigit_iff {b : UInt8} : isOctalDigit b = true ↔ ∃ d < 8, hexValue? b = some d := by
  constructor
  · intro h
    refine ⟨_, ?_, hexValue?_of_isOctalDigit h⟩
    rw [isOctalDigit_iff_toNat] at h
    omega
  · rintro ⟨d, hd, h⟩
    rw [isOctalDigit_iff_toNat]
    obtain h | h | h := hexValue?_eq_some h <;> omega

theorem hexValue?_underscore : hexValue? underscore = none := rfl

end Byte

namespace Literal

/-- The number that digits of a base denote. Bytes that are no digits count for nothing. -/
def valueOf (base : Nat) (t : Text) : Nat := Nat.ofDigits base (t.filterMap Byte.hexValue?).reverse

/-- The number that digits denote on top of what was read before them. -/
def valueFrom (base start : Nat) (t : Text) : Nat :=
  (t.filterMap Byte.hexValue?).foldl (fun n d => n * base + d) start

theorem valueFrom_zero (base : Nat) (t : Text) : valueFrom base 0 t = valueOf base t := by
  rw [valueFrom, valueOf, Nat.ofDigits_eq_foldr, List.foldr_reverse]
  congr 1
  funext n d
  simp [Nat.mul_comm, Nat.add_comm]

@[simp]
theorem valueFrom_nil (base start : Nat) : valueFrom base start [] = start := rfl

theorem valueFrom_cons_of_some {base start d : Nat} {b : UInt8} (t : Text)
    (h : Byte.hexValue? b = some d) :
    valueFrom base start (b :: t) = valueFrom base (start * base + d) t := by
  simp [valueFrom, h]

theorem valueFrom_cons_of_none {base start : Nat} {b : UInt8} (t : Text)
    (h : Byte.hexValue? b = none) : valueFrom base start (b :: t) = valueFrom base start t := by
  simp [valueFrom, h]

/-- Reading on never makes the number smaller. -/
theorem le_valueFrom {base : Nat} (hbase : 1 ≤ base) (start : Nat) (t : Text) :
    start ≤ valueFrom base start t := by
  induction t generalizing start with
  | nil => exact Nat.le_refl _
  | cons b t ih =>
    cases h : Byte.hexValue? b with
    | none =>
      rw [valueFrom_cons_of_none t h]
      exact ih start
    | some d =>
      rw [valueFrom_cons_of_some t h]
      have hstart : start ≤ start * base := Nat.le_mul_of_pos_right start hbase
      have hrest := ih (start * base + d)
      omega

/-- A number of so many digits. -/
theorem valueOf_lt {base : Nat} {t : Text} (hbase : 1 < base)
    (h : ∀ b ∈ t, ∀ d, Byte.hexValue? b = some d → d < base) :
    valueOf base t < base ^ t.length := by
  have hlength : (t.filterMap Byte.hexValue?).reverse.length ≤ t.length := by
    rw [List.length_reverse]
    exact List.length_filterMap_le _ t
  refine lt_of_lt_of_le (Nat.ofDigits_lt_base_pow_length hbase fun d hd => ?_)
    (Nat.pow_le_pow_right (by omega) hlength)
  obtain ⟨b, hb, hvalue⟩ := List.mem_filterMap.mp (List.mem_reverse.mp hd)
  exact h b hb d hvalue

/-- Decoding gives nothing, and reports one diagnostic at the place of the literal, which is of one
of the given kinds. -/
def Refused {α : Type} (x : Except Problem α) (kinds : List Diagnostic.Kind) : Prop :=
  ∀ (c : Build.Context) (span : Span) (warnings : List Diagnostic), ∃ d : Diagnostic,
    (Build.decoded c span x).run warnings = (.error d, warnings) ∧ d.kind ∈ kinds ∧
      d.file = c.file ∧ d.span = some span

theorem refused_error {α : Type} {p : Problem} {kinds : List Diagnostic.Kind}
    (h : p.kind ∈ kinds) : Refused (.error p : Except Problem α) kinds :=
  fun c span _ => ⟨p.diagnostic c.file span, rfl, h, rfl, rfl⟩

end Literal

end AvroIdl
