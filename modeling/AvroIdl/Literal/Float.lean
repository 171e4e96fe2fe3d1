import AvroIdl.Json
import AvroIdl.Literal

/-!
# Floating point literals

Underscores and one suffix letter are dropped, and the rest is read as a numeral: decimal digits
with a point and a power of ten, hexadecimal digits with a power of two, or a word for infinity or
no number. A literal that denotes no finite number is out of range, except for the words that JSON
writes as strings.
-/
namespace AvroIdl.Literal

/-- What a numeral denotes. -/
inductive Numeral where
  | infinite
  | notANumber
  /-- The number `digits · radix ^ exponent`. -/
  | finite (digits radix : Nat) (exponent : Int)
  deriving DecidableEq, Repr

namespace Numeral

/-- A beginning without regard to capitals; the word is in small letters. -/
def dropWord (word t : Text) : Option Text :=
  if (t.take word.length).map Byte.toLower = word then some (t.drop word.length) else none

/-- A sign and decimal digits. -/
def readSigned (t : Text) : Option (Int × Text) :=
  let (isNegative, t) :=
    match t with
    | 0x2D :: rest => (true, rest)
    | 0x2B :: rest => (false, rest)
    | _ => (false, t)
  let ds := t.takeWhile Byte.isDigit
  let n : Int := (ds.foldl (fun n d => n * 10 + (d.toNat - 0x30)) 0 : Nat)
  if ds.isEmpty then none else some (if isNegative then -n else n, t.dropWhile Byte.isDigit)

/-- The exponent after its mark; without digits after the mark there is none. -/
def readPower (isMark : UInt8 → Bool) (t : Text) : Int × Text :=
  match t with
  | b :: rest => if isMark b then (readSigned rest).getD (0, t) else (0, t)
  | [] => (0, t)

/-- Digits with at most one point among them. `place` is the exponent of one place after the
point. -/
def readPlaces (isDigit : UInt8 → Bool) (radix : Nat) (place : Int) (t : Text) :
    Option (Nat × Int × Text) :=
  let whole := t.takeWhile isDigit
  let rest := t.dropWhile isDigit
  let (fraction, rest) : Text × Text :=
    match rest with
    | 0x2E :: r => (r.takeWhile isDigit, r.dropWhile isDigit)
    | _ => ([], rest)
  if whole.isEmpty && fraction.isEmpty then none
  else
    let value := (whole ++ fraction).foldl (fun n d => n * radix + (Byte.hexValue? d).getD 0) 0
    some (value, -(place * fraction.length), rest)

/-- A hexadecimal numeral after its mark; a digit has four places of two. -/
def readHexadecimal (t : Text) : Option (Numeral × Text) :=
  (readPlaces Byte.isHexDigit 16 4 t).map fun (digits, exponent, rest) =>
    let (power, rest) := readPower (fun b => b == 0x70 || b == 0x50) rest
    (finite digits 2 (exponent + power), rest)

def readDecimal (t : Text) : Option (Numeral × Text) :=
  (readPlaces Byte.isDigit 10 1 t).map fun (digits, exponent, rest) =>
    let (power, rest) := readPower (fun b => b == 0x65 || b == 0x45) rest
    (finite digits 10 (exponent + power), rest)

/-- Letters, digits and underscores in parentheses may follow the word for no number. -/
def dropPayload (t : Text) : Text :=
  match t with
  | 0x28 :: rest =>
    match rest.dropWhile fun b => Byte.isAlpha b || Byte.isDigit b || b == Byte.underscore with
    | 0x29 :: after => after
    | _ => t
  | _ => t

/-- An unsigned numeral at the start of a text. -/
def readUnsigned (t : Text) : Option (Numeral × Text) :=
  match dropWord "infinity" t with
  | some rest => some (infinite, rest)
  | none =>
    match dropWord "inf" t with
    | some rest => some (infinite, rest)
    | none =>
      match dropWord "nan" t with
      | some rest => some (notANumber, dropPayload rest)
      | none =>
        match (dropWord "0x" t).bind readHexadecimal with
        | some read => some read
        | none => readDecimal t

/-- A numeral that takes up a whole text, after blanks and a sign. A zero byte ends the text. -/
def ofText? (t : Text) : Option (Bool × Numeral) :=
  let t := (t.takeWhile (· != 0)).dropWhile Byte.isSpace
  let (isNegative, t) :=
    match t with
    | 0x2D :: rest => (true, rest)
    | 0x2B :: rest => (false, rest)
    | _ => (false, t)
  match readUnsigned t with
  | some (n, []) => some (isNegative, n)
  | _ => none

end Numeral

def isFloatSuffix (b : UInt8) : Bool := b == 0x66 || b == 0x46 || b == 0x64 || b == 0x44

/-- The literal without underscores and without its suffix. -/
def floatBody (raw : Text) : Text :=
  let t := raw.filter (· != Byte.underscore)
  if t.getLast?.any isFloatSuffix then t.dropLast else t

/-- The literals for what is not a finite number, which JSON has as strings. -/
def floatWords : List (Text × Text) :=
  [("NaN", "NaN"), ("-NaN", "NaN"), ("Infinity", "Infinity"), ("-Infinity", "-Infinity")]

/-- The value that a floating point literal denotes. A number too small for the format is out of
range unless it becomes zero. -/
def decodeFloat (raw : Text) : Except Problem Json :=
  match floatWords.lookup raw with
  | some word => .ok (.string word)
  | none =>
    match Numeral.ofText? (floatBody raw) with
    | none => .error (.malformedFloat raw)
    | some (isNegative, .finite digits radix exponent) =>
      match Binary64.roundScaled isNegative digits radix exponent with
      | .number x => .ok (.float x)
      | .underflow x => if x.mantissa = 0 then .ok (.float x) else .error (.floatRange raw)
      | .overflow => .error (.floatRange raw)
    | some _ => .error (.floatRange raw)

end AvroIdl.Literal
