import AvroIdl.Token

/-!
# Lexemes

A source is cut from the left into pieces: blanks, comments, tokens, and pieces that are none of
these. Each scanner below gives the number of bytes of its piece, so the pieces put together are the
source again.
-/
namespace AvroIdl

namespace Lexeme

/-- Why a piece of a source is no token. -/
inductive Problem where
  | unexpected (byte : UInt8)
  | unterminatedString
  | unterminatedComment
  | unterminatedName
  | malformedNumber (text : Text)
  deriving DecidableEq, Repr

namespace Problem

def code : Problem → Text
  | unexpected _ => "AVDL-E2000"
  | unterminatedString => "AVDL-E2002"
  | unterminatedComment => "AVDL-E2003"
  | unterminatedName => "AVDL-E2004"
  | malformedNumber _ => "AVDL-E2005"

def message : Problem → Text
  | unexpected b => "Unexpected character '" ++ [b] ++ "' in source."
  | unterminatedString => "Unterminated string literal."
  | unterminatedComment => "Unterminated block comment."
  | unterminatedName => "Unterminated escaped identifier."
  | malformedNumber t => "Malformed numeric literal '" ++ t ++ "'."

end Problem

/-- What a piece of a source is. -/
inductive Shape where
  /-- Whitespace, or the empty comment. -/
  | blank
  /-- A comment that documents nothing. -/
  | comment
  | doc
  | token (kind : Token.Kind) (text : Text) (escaped : Bool)
  /-- A problem that starts some bytes into the piece. -/
  | problem (p : Problem) (skipped : Nat)
  deriving DecidableEq, Repr

def isNameStart (b : UInt8) : Bool := Byte.isAlpha b || b == Byte.underscore || 0x80 ≤ b

def isNamePart (b : UInt8) : Bool :=
  Byte.isAlpha b || Byte.isDigit b || b == Byte.underscore || b == Byte.minus || 0x80 ≤ b

def isDigitOrGap (b : UInt8) : Bool := Byte.isDigit b || b == Byte.underscore

/-- The number of bytes of a class at the start of a text. -/
def run (p : UInt8 → Bool) (s : Text) : Nat := (s.takeWhile p).length

/-- The kind of a name written without backticks and dots. The two words for special numbers are
floating point literals. -/
def wordKind (t : Text) : Token.Kind :=
  match Keyword.ofText? t with
  | some k => .keyword k
  | none => if t = "NaN" ∨ t = "Infinity" then .float else .identifier

/-- One part of a dotted name. -/
structure Part where
  text : Text
  length : Nat
  /-- Whether a part in backticks has its closing one on the same line. -/
  closed : Bool

def part : Text → Part
  | [] => ⟨[], 0, true⟩
  | b :: s =>
    if b = Byte.backtick then
      let text := s.takeWhile fun c => c != Byte.backtick && c != Byte.newline
      if (s.drop text.length).head? = some Byte.backtick then ⟨text, text.length + 2, true⟩
      else ⟨text, text.length + 1, false⟩
    else
      let text := b :: s.takeWhile isNamePart
      ⟨text, text.length, true⟩

/-- A dotted name of which `skipped` bytes with the given text have been read. -/
def nameFrom (s : Text) (text : Text) (escaped : Bool) (skipped : Nat) : Shape × Nat :=
  let p := part s
  let read := skipped + p.length
  if p.closed then
    let text := text ++ p.text
    let escaped := escaped || s.head? == some Byte.backtick
    let whole : Shape × Nat :=
      (.token (if escaped || text.contains Byte.dot then .identifier else wordKind text)
        text escaped, read)
    match h : s.drop p.length with
    | dot :: next :: rest =>
      if dot = Byte.dot ∧ (isNameStart next ∨ next = Byte.backtick) then
        nameFrom (next :: rest) (text ++ [dot]) escaped (read + 1)
      else whole
    | _ => whole
  else (.problem .unterminatedName skipped, read)
termination_by s.length
decreasing_by
  have := congrArg List.length h
  simp only [List.length_drop, List.length_cons] at this ⊢
  omega

/-- The digits of a number, with its fraction and exponent: whether it has one of these, and the
number of bytes. -/
def digits (s : Text) : Bool × Nat :=
  match s with
  | 0x30 :: 0x78 :: hex | 0x30 :: 0x58 :: hex =>
    (false, 2 + run (fun b => Byte.isHexDigit b || b == Byte.underscore) hex)
  | _ =>
    let whole := run isDigitOrGap s
    let (isFloat, n) : Bool × Nat :=
      match s.drop whole with
      | b :: rest =>
        if b = Byte.dot ∧ !rest.head?.any isNameStart then (true, whole + 1 + run isDigitOrGap rest)
        else (false, whole)
      | [] => (false, whole)
    match s.drop n with
    | b :: rest =>
      if b = 0x65 ∨ b = 0x45 then
        let sign := if rest.head? = some 0x2B ∨ rest.head? = some 0x2D then 1 else 0
        (true, n + 1 + sign + run Byte.isDigit (rest.drop sign))
      else (isFloat, n)
    | [] => (isFloat, n)

/-- A number after its sign, with the letter that may end it. -/
def numeral (s : Text) : Bool × Nat :=
  let (isFloat, n) := digits s
  match s.drop n with
  | b :: _ =>
    if !isFloat ∧ (b = 0x6C ∨ b = 0x4C) then (false, n + 1)
    else if b = 0x66 ∨ b = 0x46 ∨ b = 0x64 ∨ b = 0x44 then (true, n + 1)
    else (isFloat, n)
  | [] => (isFloat, n)

/-- A number, or minus infinity, or a negative NaN. -/
def number (s : Text) : Shape × Nat :=
  let sign := if s.head? = some Byte.minus then 1 else 0
  let body := s.drop sign
  if body.head? = some 0x49 ∨ body.head? = some 0x4E then
    let n := sign + run Byte.isAlpha body
    let text := s.take n
    if text = "-Infinity" ∨ text = "-NaN" then (.token .float text false, n)
    else (.problem (.malformedNumber text) 0, n)
  else
    let (isFloat, length) := numeral body
    let junk := run isNamePart (body.drop length)
    let n := sign + length + junk
    let text := s.take n
    if junk = 0 then (.token (if isFloat then .float else .integer) text false, n)
    else (.problem (.malformedNumber text) 0, n)

/-- The bytes between an opening quote and the closing one, or up to the end of the line. A
backslash takes the byte after it along, unless that byte is a newline. -/
def quotedLength (quote : UInt8) : Text → Nat × Bool
  | [] => (0, false)
  | c :: s =>
    if c = Byte.newline ∨ c = Byte.carriageReturn then (0, false)
    else if c = quote then (0, true)
    else if c = Byte.backslash then
      match s with
      | [] => (1, false)
      | d :: s =>
        if d = Byte.newline then (1, false)
        else let (n, closed) := quotedLength quote s; (n + 2, closed)
    else let (n, closed) := quotedLength quote s; (n + 1, closed)

/-- A string literal that starts at its opening quote. -/
def quoted (quote : UInt8) (s : Text) : Shape × Nat :=
  let body := s.drop 1
  match quotedLength quote body with
  | (n, true) => (.token .string (body.take n) false, n + 2)
  | (n, false) => (.problem .unterminatedString 0, n + 1)

/-- The number of bytes up to the end of a block comment. -/
def closeComment : Text → Option Nat
  | [] => none
  | c :: s =>
    if c = Byte.star ∧ s.head? = some Byte.slash then some 2
    else (closeComment s).map (· + 1)

/-- A comment, which starts with a slash. A block comment that starts with two stars is a
documentation comment, unless the second star already ends it. -/
def comment (s : Text) : Shape × Nat :=
  match s.drop 1 with
  | [] => (.problem (.unexpected Byte.slash) 0, 1)
  | c :: body =>
    if c = Byte.slash then (.comment, 2 + run (fun b => b != Byte.newline) body)
    else if c = Byte.star then
      match closeComment body with
      | none => (.problem .unterminatedComment 0, s.length)
      | some n =>
        if body.head? = some Byte.star ∧ body.tail.head? ≠ some Byte.slash then (.doc, n + 2)
        else if n + 2 > 4 then (.comment, n + 2)
        else (.blank, n + 2)
    else (.problem (.unexpected Byte.slash) 0, 1)

/-- Whether a minus sign before this byte starts a number. -/
def continuesMinus (b : UInt8) : Bool :=
  Byte.isDigit b || b == Byte.dot || b == 0x49 || b == 0x4E

/-- The first piece of a text that starts with the byte `b`, and its number of bytes. -/
def first (b : UInt8) (s : Text) : Shape × Nat :=
  if Byte.isSpace b then (.blank, 1 + run Byte.isSpace s)
  else if isNameStart b ∨ b = Byte.backtick then nameFrom (b :: s) [] false 0
  else if Byte.isDigit b ∨ (b = Byte.dot ∧ s.head?.any Byte.isDigit) then number (b :: s)
  else if b = Byte.doubleQuote ∨ b = Byte.singleQuote then quoted b (b :: s)
  else if b = Byte.minus ∧ s.head?.any continuesMinus then number (b :: s)
  else if b = Byte.slash then comment (b :: s)
  else
    match Mark.ofByte? b with
    | some m => (.token (.mark m) [b] false, 1)
    | none => (.problem (.unexpected b) 0, 1)

end Lexeme

/-- A piece of a source and its place. -/
structure Lexeme where
  shape : Lexeme.Shape
  text : Text
  span : Span
  deriving DecidableEq, Repr

namespace Lexeme

/-- The pieces of a text that starts at the given place. -/
def cut (l : Location) : Text → List Lexeme
  | [] => []
  | b :: s =>
    let (shape, n) := first b s
    let text := b :: s.take (n - 1)
    let stop := l.after text
    ⟨shape, text, ⟨l, stop⟩⟩ :: cut stop (s.drop (n - 1))
termination_by s => s.length
decreasing_by
  simp only [List.length_drop, List.length_cons]
  omega

/-- The pieces put together are the text. -/
theorem text_cut (l : Location) (s : Text) : (cut l s).flatMap (·.text) = s := by
  fun_induction cut l s with
  | case1 => rfl
  | case2 l b s shape n hn text stop ih =>
    rw [List.flatMap_cons, ih]
    simp [text]

def byteOrderMark : Text := [0xEF, 0xBB, 0xBF]

/-- A source after its byte order mark, and the place where it starts: the mark takes no column. -/
def skipMark (source : Text) : Location × Text :=
  match Text.dropStart byteOrderMark source with
  | some rest => (⟨1, 1, 3⟩, rest)
  | none => ({}, source)

/-- The pieces of a source. -/
def ofSource (source : Text) : List Lexeme :=
  let (start, text) := skipMark source
  cut start text

/-- The place where a problem starts in its piece. -/
def problemSpan (x : Lexeme) (skipped : Nat) : Span :=
  ⟨x.span.start.after (x.text.take skipped), x.span.stop⟩

end Lexeme

end AvroIdl
