import AvroIdl.Json
import AvroIdl.Number.Shortest
import AvroIdl.Text.Utf8

/-!
# JSON text

Values are written on one line without blanks, or with two blanks of indentation per level. Texts
that are not valid UTF-8 are repaired as they are written, or cannot be written where the writer is
strict.
-/
namespace AvroIdl.Json

/-- How a decimal is laid out. -/
structure NumberLayout where
  /-- The least and the largest position of the point that are written out with zeros. -/
  leastPoint : Int
  largestPoint : Int
  /-- The least number of digits of an exponent. -/
  exponentWidth : Nat

/-- Numbers from `0.0001` up to fifteen digits before the point are written out, others with an
exponent of two digits or more. -/
def layout : NumberLayout := ⟨-3, 15, 2⟩

def zeros (n : Nat) : Text := List.replicate n 0x30

/-- A sign and at least as many digits as the width says. -/
def exponentText (width : Nat) (e : Int) : Text :=
  let digits := Text.ofNat e.natAbs
  (if e < 0 then "-" else "+") ++ (zeros (width - digits.length) ++ digits)

def decimalText (l : NumberLayout) (d : Decimal) : Text :=
  let digits := Text.ofNat d.digits
  if l.leastPoint ≤ d.point ∧ d.point ≤ l.largestPoint then
    if d.point ≤ 0 then "0." ++ (zeros (-d.point).toNat ++ digits)
    else if digits.length ≤ d.point.toNat then
      digits ++ zeros (d.point.toNat - digits.length) ++ ".0"
    else digits.take d.point.toNat ++ "." ++ digits.drop d.point.toNat
  else
    let fraction : Text := if digits.length = 1 then [] else "." ++ digits.drop 1
    digits.take 1 ++ fraction ++ "e" ++ exponentText l.exponentWidth (d.point - 1)

def floatText (x : Binary64) : Text :=
  (if x.isNegative then "-" else "") ++
    (if x.mantissa = 0 then ("0.0" : Text) else decimalText layout x.shortest)

/-- The digit of a number below sixteen, in small letters. -/
def hexDigit (n : Nat) : UInt8 := if n < 10 then (0x30 + n).toUInt8 else (0x57 + n).toUInt8

/-- One byte inside quotes: the quote, the backslash and the control characters are escaped. -/
def escapeByte (b : UInt8) : Text :=
  if b = 0x22 then "\\\""
  else if b = 0x5C then "\\\\"
  else if b = 0x08 then "\\b"
  else if b = 0x0C then "\\f"
  else if b = 0x0A then "\\n"
  else if b = 0x0D then "\\r"
  else if b = 0x09 then "\\t"
  else if b < 0x20 then "\\u00" ++ [hexDigit (b.toNat / 16), hexDigit (b.toNat % 16)]
  else [b]

def quoted (t : Text) : Text := "\"" ++ (Utf8.repair t).flatMap escapeByte ++ "\""

mutual

/-- A value on one line without blanks. -/
def compact : Json → Text
  | null => "null"
  | bool true => "true"
  | bool false => "false"
  | integer i => Text.ofInt i
  | float x => floatText x
  | string s => quoted s
  | array elements => "[" ++ Text.join "," (compactElements elements) ++ "]"
  | object members =>
    Byte.leftBrace :: Text.join "," (compactMembers members) ++ [Byte.rightBrace]

def compactElements : List Json → List Text
  | [] => []
  | e :: es => compact e :: compactElements es

def compactMembers : List (Text × Json) → List Text
  | [] => []
  | (key, value) :: ms => (quoted key ++ ":" ++ compact value) :: compactMembers ms

end

mutual

/-- Whether all texts in a value are valid UTF-8, so that a strict writer takes it. -/
def isPrintable : Json → Bool
  | string s => Utf8.isValid s
  | array elements => elementsPrintable elements
  | object members => membersPrintable members
  | _ => true

def elementsPrintable : List Json → Bool
  | [] => true
  | e :: es => isPrintable e && elementsPrintable es

def membersPrintable : List (Text × Json) → Bool
  | [] => true
  | (key, value) :: ms => Utf8.isValid key && isPrintable value && membersPrintable ms

end

/-- A new line with the given number of blanks. -/
def newLine (indent : Nat) : Text := Byte.newline :: List.replicate indent Byte.space

/-- Items between brackets, each on a line of its own; nothing stands between empty brackets. -/
def enclosed (opening closing : UInt8) (indent : Nat) (items : List Text) : Text :=
  if items.isEmpty then [opening, closing]
  else
    opening :: newLine (indent + 2) ++ Text.join (Byte.comma :: newLine (indent + 2)) items ++
      newLine indent ++ [closing]

mutual

/-- A value over several lines, the first of which is already indented. -/
def indented (indent : Nat) : Json → Text
  | array elements => enclosed 0x5B 0x5D indent (indentedElements (indent + 2) elements)
  | object members =>
    enclosed Byte.leftBrace Byte.rightBrace indent (indentedMembers (indent + 2) members)
  | j => compact j

def indentedElements (indent : Nat) : List Json → List Text
  | [] => []
  | e :: es => indented indent e :: indentedElements indent es

def indentedMembers (indent : Nat) : List (Text × Json) → List Text
  | [] => []
  | (key, value) :: ms => (quoted key ++ ": " ++ indented indent value) :: indentedMembers indent ms

end

/-- The text of a whole document. -/
def render (j : Json) : Text := indented 0 j

end AvroIdl.Json
