import AvroIdl.Json
import AvroIdl.Text.Escape

/-!
# Reading JSON text

The strict grammar: no comments, no trailing commas, control characters only as escapes, surrogates
only in pairs, and valid UTF-8 throughout. A byte order mark before the document is skipped. Every
reader gives the value and the rest of the text. A number too large for binary64 ends the reading in
a way of its own.
-/
namespace AvroIdl.Json

/-- Why a text is not read. -/
inductive ReadFault where
  | malformed
  /-- A number is too large; the rest of the text follows it. -/
  | overflow (rest : Text)
  deriving DecidableEq, Repr

/-- What has to be there for the text to be well formed. -/
def expected {α : Type} : Option α → Except ReadFault α
  | some a => .ok a
  | none => .error .malformed

def isBlank (b : UInt8) : Bool := b == 0x20 || b == 0x09 || b == 0x0A || b == 0x0D

def skipBlanks (t : Text) : Text := t.dropWhile isBlank

/-- Passes blanks and then the given byte. -/
def passByte (b : UInt8) (t : Text) : Option Text :=
  match skipBlanks t with
  | c :: rest => if c = b then some rest else none
  | [] => none

/-- The value of a run of decimal digits. -/
def digitsValue (ds : Text) : Nat := ds.foldl (fun n d => n * 10 + (d.toNat - 0x30)) 0

/-- A run of one or more decimal digits. -/
def readDigits (t : Text) : Option (Text × Text) :=
  let ds := t.takeWhile Byte.isDigit
  if ds.isEmpty then none else some (ds, t.dropWhile Byte.isDigit)

/-- The digits after a point, if there is one. -/
def readFraction (t : Text) : Option (Option Text × Text) :=
  match t with
  | 0x2E :: rest => (readDigits rest).map fun (ds, rest) => (some ds, rest)
  | _ => some (none, t)

/-- The power of ten after the exponent mark, if there is one. -/
def readExponent (t : Text) : Option (Option Int × Text) :=
  match t with
  | b :: rest =>
    if b = 0x65 ∨ b = 0x45 then
      let (isNegative, rest) :=
        match rest with
        | 0x2D :: r => (true, r)
        | 0x2B :: r => (false, r)
        | _ => (false, rest)
      (readDigits rest).map fun (ds, rest) =>
        let n : Int := digitsValue ds
        (some (if isNegative then -n else n), rest)
    else some (none, t)
  | [] => some (none, t)

/-- The value of a number: an integer if it is written as one and fits into 64 bits, and otherwise
the nearest binary64 number, unless it is too large for one. -/
def numberValue (isNegative : Bool) (whole : Text) (fraction : Option Text)
    (exponent : Option Int) : Option Json :=
  let magnitude := digitsValue whole
  let inexact : Option Json :=
    let digits := digitsValue (whole ++ fraction.getD [])
    let e := exponent.getD 0 - ((fraction.getD []).length : Int)
    ((Binary64.roundScaled isNegative digits 10 e).value?).map float
  if fraction.isNone && exponent.isNone then
    if isNegative then if magnitude ≤ pow2 63 then some (integer (-magnitude)) else inexact
    else if magnitude < pow2 64 then some (integer magnitude) else inexact
  else inexact

def readNumber (t : Text) : Except ReadFault (Json × Text) := do
  let (isNegative, t) :=
    match t with
    | 0x2D :: rest => (true, rest)
    | _ => (false, t)
  let (whole, t) ← expected (readDigits t)
  if whole.head? = some 0x30 ∧ 1 < whole.length then .error .malformed
  else
    let (fraction, t) ← expected (readFraction t)
    let (exponent, t) ← expected (readExponent t)
    match numberValue isNegative whole fraction exponent with
    | some value => return (value, t)
    | none => .error (.overflow t)

/-- The character of a unicode escape, after its letter. -/
def readCodePoint (t : Text) : Option (Text × Text) := do
  let (unit, rest) ← Escape.readUnit t
  if Escape.isHighSurrogate unit then
    match rest with
    | 0x5C :: 0x75 :: rest =>
      let (low, rest) ← Escape.readUnit rest
      if Escape.isLowSurrogate low then
        some (Utf8.encode (Escape.surrogatePair unit low), rest)
      else none
    | _ => none
  else if Escape.isLowSurrogate unit then none
  else some (Utf8.encode unit, rest)

/-- What an escape stands for, after its backslash. -/
def readEscape : Text → Option (Text × Text)
  | [] => none
  | b :: rest =>
    if b = 0x22 ∨ b = 0x5C ∨ b = 0x2F then some ([b], rest)
    else if b = 0x62 then some ([0x08], rest)
    else if b = 0x66 then some ([0x0C], rest)
    else if b = 0x6E then some ([0x0A], rest)
    else if b = 0x72 then some ([0x0D], rest)
    else if b = 0x74 then some ([0x09], rest)
    else if b = 0x75 then readCodePoint rest
    else none

/-- The characters up to the closing quote. Every step passes a byte. -/
def readCharacters : (steps : Nat) → Text → Option (Text × Text)
  | 0, _ => none
  | _ + 1, [] => none
  | steps + 1, b :: rest =>
    if b = Byte.doubleQuote then some ([], rest)
    else if b = Byte.backslash then do
      let (c, rest) ← readEscape rest
      let (cs, rest) ← readCharacters steps rest
      return (c ++ cs, rest)
    else if b < 0x20 then none
    else do
      let (cs, rest) ← readCharacters steps rest
      return (b :: cs, rest)

/-- A string after blanks. -/
def readString (t : Text) : Option (Text × Text) := do
  let rest ← passByte Byte.doubleQuote t
  readCharacters (rest.length + 1) rest

/-- The words for values without parts. -/
def words : List (Text × Json) := [("null", null), ("true", bool true), ("false", bool false)]

def readWord (t : Text) : Except ReadFault (Json × Text) :=
  expected (words.findSome? fun (w, value) => (Text.dropStart w t).map fun rest => (value, rest))

mutual

/-- A value after blanks. Every level passes a byte. -/
def readValue : (levels : Nat) → Text → Except ReadFault (Json × Text)
  | 0, _ => .error .malformed
  | levels + 1, t =>
    match skipBlanks t with
    | [] => .error .malformed
    | b :: rest =>
      if b = Byte.leftBrace then
        match passByte Byte.rightBrace rest with
        | some rest => .ok (object [], rest)
        | none => (readMembers levels [] rest).map fun (ms, rest) => (object ms, rest)
      else if b = 0x5B then
        match passByte 0x5D rest with
        | some rest => .ok (array [], rest)
        | none => (readElements levels rest).map fun (es, rest) => (array es, rest)
      else if b = Byte.doubleQuote then
        expected ((readString (b :: rest)).map fun (s, rest) => (string s, rest))
      else if b = Byte.minus || Byte.isDigit b then readNumber (b :: rest)
      else readWord (b :: rest)

/-- The elements up to the closing bracket. -/
def readElements : (levels : Nat) → Text → Except ReadFault (List Json × Text)
  | 0, _ => .error .malformed
  | levels + 1, t => do
    let (e, t) ← readValue levels t
    match passByte 0x5D t with
    | some t => return ([e], t)
    | none =>
      let t ← expected (passByte Byte.comma t)
      let (es, t) ← readElements levels t
      return (e :: es, t)

/-- The members up to the closing brace, added to those before them. -/
def readMembers : (levels : Nat) → Members → Text → Except ReadFault (Members × Text)
  | 0, _, _ => .error .malformed
  | levels + 1, ms, t => do
    let (key, t) ← expected (readString t)
    let t ← expected (passByte 0x3A t)
    let (value, t) ← readValue levels t
    let ms := ms.put key value
    match passByte Byte.rightBrace t with
    | some t => return (ms, t)
    | none =>
      let t ← expected (passByte Byte.comma t)
      readMembers levels ms t

end

/-- The encoding of the byte order mark. -/
def byteOrderMark : Text := [0xEF, 0xBB, 0xBF]

/-- The value of a whole text. What comes first decides: bytes that are not UTF-8 before a number
that is too large make the text malformed, and those after it are not looked at. -/
def parse (t : Text) : Except ReadFault Json :=
  let body := (Text.dropStart byteOrderMark t).getD t
  match readValue (body.length + 1) body with
  | .ok (value, rest) =>
    if Utf8.isValid body && (skipBlanks rest).isEmpty then .ok value else .error .malformed
  | .error .malformed => .error .malformed
  | .error (.overflow rest) =>
    if Utf8.isValid (body.take (body.length - rest.length)) then .error (.overflow rest)
    else .error .malformed

/-- The value of a text that can be read. -/
def parse? (t : Text) : Option Json := (parse t).toOption

end AvroIdl.Json
