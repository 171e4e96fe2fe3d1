import AvroIdl.Literal
import AvroIdl.Text.Escape

/-!
# String literals

What stands between the quotes of a string literal: plain bytes, the eight simple escapes, octal
escapes of up to three digits, and unicode escapes with one or more letters `u`, of which surrogates
must come in pairs.
-/
namespace AvroIdl.Literal

/-- What a letter after a backslash stands for. -/
def simpleEscape? (b : UInt8) : Option UInt8 :=
  if b = 0x62 then some 0x08
  else if b = 0x74 then some 0x09
  else if b = 0x6E then some 0x0A
  else if b = 0x66 then some 0x0C
  else if b = 0x72 then some 0x0D
  else if b = Byte.doubleQuote ∨ b = Byte.singleQuote ∨ b = Byte.backslash then some b
  else none

def isLetterU (b : UInt8) : Bool := b == 0x75

/-- One or more letters `u` and four hexadecimal digits. -/
def readUnit (t : Text) : Option (Nat × Text) := Escape.readUnit (t.dropWhile isLetterU)

/-- The unit of a second escape that follows at once. -/
def readSecondUnit : Text → Option (Nat × Text)
  | b :: c :: rest => if b = Byte.backslash ∧ isLetterU c then readUnit (c :: rest) else none
  | _ => none

/-- The character of a unicode escape, which starts at its first letter. -/
def decodeUnicode (t : Text) : Except Problem (Text × Text) :=
  let written : Text :=
    Byte.backslash :: t.takeWhile isLetterU ++ (t.dropWhile isLetterU).take 4
  match readUnit t with
  | none => .error (.unicodeEscape written)
  | some (unit, rest) =>
    if Escape.isHighSurrogate unit then
      match readSecondUnit rest with
      | none => .error (.unpairedSurrogate written)
      | some (low, rest) =>
        if Escape.isLowSurrogate low then
          .ok (Utf8.encode (Escape.surrogatePair unit low), rest)
        else .error (.unpairedSurrogate written)
    else if Escape.isLowSurrogate unit then .error (.unpairedSurrogate written)
    else .ok (Utf8.encode unit, rest)

/-- The most digits that an octal escape may have: three only if its value stays below 256. -/
def octalWidth (first : UInt8) : Nat := if first ≤ 0x33 then 3 else 2

def octalValue (ds : Text) : Nat := ds.foldl (fun n d => n * 8 + (d.toNat - 0x30)) 0

/-- The character of an octal escape, which starts at its first digit. -/
def decodeOctal (first : UInt8) (t : Text) : Text × Text :=
  let ds := (t.take (octalWidth first)).takeWhile Byte.isOctalDigit
  (Utf8.encode (octalValue ds), t.drop ds.length)

/-- The character of an escape and the text after it; the backslash has been passed. -/
def decodeEscape : Text → Except Problem (Text × Text)
  | [] => .error .loneBackslash
  | b :: rest =>
    match simpleEscape? b with
    | some c => .ok ([c], rest)
    | none =>
      if isLetterU b then decodeUnicode (b :: rest)
      else if Byte.isOctalDigit b then .ok (decodeOctal b (b :: rest))
      else .error (.unknownEscape [Byte.backslash, b])

/-- Decodes from the left. Every step passes a byte. -/
def decodeCharacters : (steps : Nat) → Text → Except Problem Text
  | 0, _ => .ok []
  | _ + 1, [] => .ok []
  | steps + 1, b :: rest =>
    if b = Byte.backslash then do
      let (c, rest) ← decodeEscape rest
      return c ++ (← decodeCharacters steps rest)
    else return b :: (← decodeCharacters steps rest)

/-- The text that a string literal denotes. -/
def decodeString (raw : Text) : Except Problem Text := decodeCharacters raw.length raw

end AvroIdl.Literal
