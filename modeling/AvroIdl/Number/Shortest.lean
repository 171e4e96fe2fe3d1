import AvroIdl.Number.Binary64

/-!
# Shortest decimals

The fewest decimal digits that read back as a given number: for one digit, two digits and so on the
two neighbours of the number on that decimal grid are tried, and of two that read back the nearer is
taken. A number half way between them goes to the even one.
-/
namespace AvroIdl

/-- The number `0.d₁d₂… · 10 ^ point`, whose digits are those of `digits`. -/
structure Decimal where
  digits : Nat
  point : Int
  deriving DecidableEq, Repr

namespace Binary64

/-- Compares `x · 2 ^ a` with `y · 10 ^ b`. -/
def compareScaled (x : Nat) (a : Int) (y : Nat) (b : Int) : Ordering :=
  compare (x * pow2 a.toNat * pow10 (-b).toNat) (y * pow10 b.toNat * pow2 (-a).toNat)

/-- Whether `c · 10 ^ k` is rounded to the number. The bounds are half way to its neighbours, and
belong to it if its mantissa is even. -/
def isReadFrom (x : Binary64) (c : Nat) (k : Int) : Bool :=
  let isEven := x.mantissa % 2 == 0
  let gap := if x.mantissa = pow2 52 ∧ -1074 < x.exponent then 1 else 2
  let low := compareScaled (4 * x.mantissa - gap) (x.exponent - 2) c k
  let high := compareScaled (4 * x.mantissa + 2) (x.exponent - 2) c k
  (low == .lt || (isEven && low == .eq)) && (high == .gt || (isEven && high == .eq))

/-- The position of the decimal point before the first digit of a number that is not zero: the
number lies between `10 ^ (point - 1)` and `10 ^ point`. -/
def point (x : Binary64) : Int :=
  let n := x.mantissa * pow2 x.exponent.toNat * pow10 400 / pow2 (-x.exponent).toNat
  (Nat.toDigits 10 n).length - 400

/-- The better of the two neighbours with `count` digits, if one of them reads back: the nearest
decimal of that length where both do. -/
def onGrid? (x : Binary64) (count : Nat) : Option Decimal :=
  let k := x.point - count
  let n := x.mantissa * pow2 x.exponent.toNat * pow10 (-k).toNat
  let d := pow2 (-x.exponent).toNat * pow10 k.toNat
  let below := n / d
  let above := below + 1
  let asDecimal (c : Nat) : Decimal :=
    if c = pow10 count then ⟨1, x.point + 1⟩ else ⟨c, x.point⟩
  match x.isReadFrom below k, x.isReadFrom above k with
  | true, true => some (asDecimal (roundQuotient n d))
  | true, false => some (asDecimal below)
  | false, true => some (asDecimal above)
  | false, false => none

/-- The shortest decimal of a number that is not zero; seventeen digits are always enough. -/
def shortest (x : Binary64) : Decimal :=
  ((List.range 17).findSome? fun i => x.onGrid? (i + 1)).getD ⟨0, 0⟩

end Binary64

end AvroIdl
