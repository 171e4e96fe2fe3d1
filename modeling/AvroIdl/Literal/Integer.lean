import AvroIdl.Literal

/-!
# Integer literals

An optional minus sign, then hexadecimal digits after `0x`, octal digits after `0`, or decimal
digits, and an optional `l` or `L`. Underscores may stand anywhere among the digits. The value must
fit into 64 bits with a sign.
-/
namespace AvroIdl.Literal

/-- The largest absolute value, which only a negative literal may have. -/
def magnitudeLimit : UInt64 := 0x8000000000000000

/-- Reads digits of a base from the left, on top of the value before them; `seen` tells whether
there was a digit already. The first digit that is wrong or leaves the range decides the problem.
The value is kept in 64 bits, so the range is judged before a digit is added. -/
def readMagnitude (raw : Text) (base : Nat) : (seen : Bool) → (value : UInt64) → Text →
    Except Problem (Bool × UInt64)
  | seen, value, [] => .ok (seen, value)
  | seen, value, b :: rest =>
    if b = Byte.underscore then readMagnitude raw base seen value rest
    else
      match Byte.hexValue? b with
      | none => .error (.malformedInteger raw)
      | some digit =>
        if base ≤ digit then .error (.malformedInteger raw)
        else if (magnitudeLimit - digit.toUInt64) / base.toUInt64 < value then
          .error (.integerRange raw)
        else readMagnitude raw base true (value * base.toUInt64 + digit.toUInt64) rest

/-- The base of a literal without its sign and suffix, and the digits after the mark of the base. -/
def splitBase : Text → Nat × Text
  | 0x30 :: b :: c :: rest =>
    if b = 0x78 ∨ b = 0x58 then (16, c :: rest) else (8, b :: c :: rest)
  | 0x30 :: b :: [] => (8, [b])
  | t => (10, t)

/-- The literal without the suffix for long integers. -/
def dropSuffix (t : Text) : Text :=
  if t.getLast? = some 0x6C ∨ t.getLast? = some 0x4C then t.dropLast else t

def splitSign : Text → Bool × Text
  | 0x2D :: rest => (true, rest)
  | t => (false, t)

/-- The number that an integer literal denotes. -/
def decodeInteger (raw : Text) : Except Problem Int := do
  let (isNegative, t) := splitSign raw
  let (base, digits) := splitBase (dropSuffix t)
  let (seen, magnitude) ← readMagnitude raw base false 0 digits
  if !seen && base != 8 then .error (.malformedInteger raw)
  else if isNegative then .ok (-magnitude.toNat)
  else if magnitude = magnitudeLimit then .error (.integerRange raw)
  else .ok magnitude.toNat

/-- The number that a literal denotes where only 32 bits without a sign are allowed; `what` says
what it is for. -/
def decodeUnsigned32 (what raw : Text) : Except Problem Nat := do
  let n ← decodeInteger raw
  if 0 ≤ n ∧ n < pow2 32 then .ok n.toNat else .error (.unsignedRange what raw)

end AvroIdl.Literal
