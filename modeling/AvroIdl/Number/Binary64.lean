import AvroIdl.Number.Power

/-!
# Numbers of binary64

A finite number of the IEEE format is held as a sign, a whole mantissa and a power of two, so that
every operation on it is exact. Rationals are rounded to the nearest number, a tie going to the even
mantissa. One kind of rational is not taken as it is: below the normal range, the last one of
exactly 54 significant bits is lost.
-/
namespace AvroIdl

/-- The mantissas and exponents in the one form that every finite number has. -/
def Binary64.IsNormal (mantissa : Nat) (exponent : Int) : Prop :=
  mantissa < pow2 53 ∧ -1074 ≤ exponent ∧ exponent ≤ 971 ∧ (exponent = -1074 ∨ pow2 52 ≤ mantissa)

instance (mantissa : Nat) (exponent : Int) : Decidable (Binary64.IsNormal mantissa exponent) := by
  unfold Binary64.IsNormal
  infer_instance

/-- The number `± mantissa · 2 ^ exponent`. -/
structure Binary64 where
  isNegative : Bool
  mantissa : Nat
  exponent : Int
  normal : Binary64.IsNormal mantissa exponent
  deriving DecidableEq, Repr

namespace Binary64

/-- A zero of either sign. -/
def zero (isNegative : Bool) : Binary64 := ⟨isNegative, 0, -1074, by decide⟩

/-- The nearest whole number of a quotient; a tie goes to the even neighbour. -/
def roundQuotient (n d : Nat) : Nat :=
  let q := n / d
  let r := n % d
  if 2 * r < d then q
  else if d < 2 * r then q + 1
  else q + q % 2

/-- The nearest whole number is no more than a half away. -/
theorem roundQuotient_near (n : Nat) {d : Nat} (hd : 0 < d) :
    2 * n ≤ 2 * (d * roundQuotient n d) + d ∧ 2 * (d * roundQuotient n d) ≤ 2 * n + d := by
  have h := Nat.div_add_mod n d
  have hr := Nat.mod_lt n hd
  have hs : d * (n / d + 1) = d * (n / d) + d := Nat.mul_succ d (n / d)
  rw [roundQuotient]
  split
  · omega
  · split
    · rw [hs]
      omega
    · rcases Nat.mod_two_eq_zero_or_one (n / d) with hq | hq
      · rw [hq, Nat.add_zero]
        omega
      · rw [hq, hs]
        omega

/-- Half way between two whole numbers, the even one is taken. -/
theorem roundQuotient_even_of_tie {n d : Nat} (h : 2 * (n % d) = d) :
    roundQuotient n d % 2 = 0 := by
  simp only [roundQuotient, h, Nat.lt_irrefl, if_false]
  omega

/-- The quotient `n / d` divided by `2 ^ e`, as a numerator and a denominator. -/
def scaleDown (n d : Nat) (e : Int) : Nat × Nat :=
  (n * pow2 (-e).toNat, d * pow2 e.toNat)

/-- The exponent that the quotient's number has before rounding. -/
def exponentOf (n d : Nat) : Int :=
  let e : Int := (n.log2 : Int) - (d.log2 : Int) - 53
  let (sn, sd) := scaleDown n d e
  let e := if sd * pow2 53 ≤ sn then e + 1 else e
  if e < -1074 then -1074 else e

/-- The number nearest to `± n / d`, or nothing if it is beyond the largest one. -/
def ofQuotient (isNegative : Bool) (n d : Nat) : Option Binary64 :=
  let e := exponentOf n d
  let (sn, sd) := scaleDown n d e
  let m := roundQuotient sn sd
  let (m, e) := if m = pow2 53 then (pow2 52, e + 1) else (m, e)
  if h : IsNormal m e then some ⟨isNegative, m, e, h⟩ else none

/-- Whether `n / d`, rounded to 53 bits without a least exponent, stays below `2 ^ (-1022)`. -/
def isTiny (n d : Nat) : Bool := n * pow2 1076 < d * (pow2 54 - 1)

/-- Whether the quotient is exactly the number. -/
def isExactly (x : Binary64) (n d : Nat) : Bool :=
  n * pow2 (-x.exponent).toNat == d * (x.mantissa * pow2 x.exponent.toNat)

/-- How many binary places of a numeral are told apart. Decimal digits are looked at up to the place
`10 ^ (-1076)`; of a binary numeral, no later bit than `2 ^ (-1128)` matters. -/
def places (radix : Nat) : Nat := if radix = 10 then 1076 else 1128

/-- The rational that is rounded in place of `n / d`. Below `2 ^ (-1022)`, the leading 53 bits are
taken together with a mark that says whether anything comes after the 54th; so that bit is lost if
it is the last one, as long as it stands within the given places. -/
def taken (places n d : Nat) : Nat × Nat :=
  let units := n * pow2 places / d
  let last := pow2 (units.log2 - 53)
  if n * pow2 1022 < d ∧ n * pow2 places % d = 0 ∧ pow2 53 ≤ units ∧ units % (2 * last) = last then
    (units - last, pow2 places)
  else (n, d)

/-- Nothing is lost of a number in the normal range. -/
theorem taken_of_le {n d : Nat} (h : d ≤ n * pow2 1022) (places : Nat) :
    taken places n d = (n, d) := by
  rw [taken, if_neg]
  exact fun lost => Nat.not_lt.2 h lost.1

/-- Nothing is lost of a rational that goes on after the given places. -/
theorem taken_of_mod_ne_zero {places n d : Nat} (h : n * pow2 places % d ≠ 0) :
    taken places n d = (n, d) := by
  rw [taken, if_neg]
  exact fun lost => h lost.2.1

/-- What becomes of a positive rational. -/
inductive Rounding where
  | overflow
  /-- The number is tiny and not what was taken of the rational. -/
  | underflow (x : Binary64)
  | number (x : Binary64)
  deriving DecidableEq, Repr

/-- Rounds `± n / d`, and says whether the range was too small for it. -/
def round (places : Nat) (isNegative : Bool) (n d : Nat) : Rounding :=
  let (tn, td) := taken places n d
  match ofQuotient isNegative tn td with
  | none => .overflow
  | some x => if isTiny n d && !x.isExactly tn td then .underflow x else .number x

/-- Rounds `± digits · radix ^ exponent`. What lies beyond `radix ^ 4000` on either side is decided
without its power. -/
def roundScaled (isNegative : Bool) (digits radix : Nat) (exponent : Int) : Rounding :=
  let magnitude : Int := (Nat.toDigits radix digits).length + exponent
  if digits = 0 then .number (zero isNegative)
  else if 4000 < magnitude then .overflow
  else if magnitude < -4000 then .underflow (zero isNegative)
  else
    round (places radix) isNegative (digits * Nat.pow radix exponent.toNat)
      (Nat.pow radix (-exponent).toNat)

def Rounding.value? : Rounding → Option Binary64
  | overflow => none
  | underflow x | number x => some x

end Binary64

end AvroIdl
