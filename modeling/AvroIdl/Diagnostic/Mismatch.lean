import AvroIdl.Text.Distance
import AvroIdl.Token

/-!
# Mismatch messages

A syntax error names the token that was found and the kinds of tokens that could have stood there.
The plain form of this message lists them all; the readable form names classes of tokens in words,
puts one entry for the type keywords, and cuts a long list short.
-/
namespace AvroIdl

/-- The token that was found, and what was expected in its place. -/
structure Mismatch where
  actual : Text
  expected : List Text
  deriving DecidableEq, Repr

namespace Mismatch

/-- How a token is shown. -/
def describe (t : Token) : Text :=
  match t.kind with
  | .endOfFile => "<EOF>"
  | .string => "\"" ++ t.text ++ "\""
  | _ => if t.escaped then [Byte.backtick] ++ t.text ++ [Byte.backtick] else t.text

/-- How an expected kind is shown: keywords and marks in quotes. -/
def describeKind : Token.Kind → Text
  | .keyword k => "'" ++ k.text ++ "'"
  | .mark m => "'" ++ [m.byte] ++ "'"
  | k => k.text

def ofToken (t : Token) (expected : List Token.Kind) : Mismatch :=
  ⟨describe t, expected.map describeKind⟩

def opening : Text := "mismatched input '"

def divider : Text := "' expecting "

/-- The plain message. -/
def message (m : Mismatch) : Text :=
  let expected : Text :=
    match m.expected with
    | [e] => e
    | es => [Byte.leftBrace] ++ Text.join ", " es ++ [Byte.rightBrace]
  opening ++ m.actual ++ divider ++ expected

/-- The entries of an expected list: one, or several in braces, of which empty ones are left out. -/
def entries (t : Text) : List Text :=
  if 2 ≤ t.length ∧ t.head? = some Byte.leftBrace ∧ t.getLast? = some Byte.rightBrace then
    (Text.splitPair Byte.comma Byte.space (t.drop 1).dropLast).filter fun e => !e.isEmpty
  else [t]

/-- Reads a plain message; the last divider in it counts. -/
def ofMessage? (t : Text) : Option Mismatch :=
  match Text.dropStart opening t with
  | none => none
  | some rest =>
    match Text.splitAtLast divider rest with
    | none => none
    | some (actual, expected) => some ⟨actual, entries expected⟩

/-- The entries that name a type by a keyword. -/
def isTypeEntry (e : Text) : Bool :=
  (Keyword.all.filter Keyword.isType).any fun k => describeKind (.keyword k) == e

/-- Classes of tokens in words. -/
def rename (e : Text) : Text :=
  if e = "IdentifierToken" then "identifier"
  else if e = "StringLiteral" then "string literal"
  else if e = "IntegerLiteral" then "integer literal"
  else if e = "FloatingPointLiteral" then "floating-point literal"
  else if e = "<EOF>" then "end of file"
  else e

/-- Keeps the first of equal entries. -/
def distinct (es : List Text) : List Text :=
  es.foldl (fun seen e => if seen.contains e then seen else seen ++ [e]) []

/-- The entries as they are shown: two or more type keywords become one entry. -/
def readableEntries (es : List Text) : List Text :=
  let collapse := 1 < es.countP isTypeEntry
  distinct (es.map fun e => if collapse && isTypeEntry e then "type name" else rename e)

/-- The keywords among the entries, without their quotes. Single marks are no candidates for a
misspelling. -/
def keywords (es : List Text) : List Text :=
  (es.filter fun e =>
    3 < e.length && e.head? == some Byte.singleQuote && e.getLast? == some Byte.singleQuote).map
    fun e => (e.drop 1).dropLast

/-- Keywords that are often written together with the name after them. -/
def leadingKeywords : List Text :=
  ["protocol", "namespace", "import", "schema", "record", "error", "enum", "fixed", "array", "map",
    "union", "throws"]

/-- An expected keyword that is glued to the name after it, with the missing space put in. -/
def unglue (actual : Text) (expected : List Text) : Option Text :=
  leadingKeywords.findSome? fun k =>
    match Text.dropStart k actual with
    | some (b :: rest) =>
      if expected.contains k && (Byte.isAlpha b || b == Byte.underscore) then
        some (k ++ " " ++ b :: rest)
      else none
    | _ => none

/-- The most entries that are listed. -/
def maxShown : Nat := 8

def listing (es : List Text) : Text :=
  match es with
  | [] => []
  | [e] => ", expected " ++ e
  | es =>
    let more : Text :=
      if maxShown < es.length then " ... and " ++ Text.ofNat (es.length - maxShown) ++ " more"
      else []
    ", expected one of: " ++ Text.join ", " (es.take maxShown) ++ more

/-- The readable message. -/
def readable (m : Mismatch) : Text :=
  let found : Text :=
    if m.actual = "<EOF>" then "unexpected end of file" else "unexpected '" ++ m.actual ++ "'"
  let hint : Text :=
    match (unglue m.actual (keywords m.expected)).or
        (Distance.closest m.actual (keywords m.expected)) with
    | some word => " (did you mean '" ++ word ++ "'?)"
    | none => []
  found ++ listing (readableEntries m.expected) ++ hint

/-- The readable form of a plain message; any other text is returned as it is. -/
def enrich (t : Text) : Text :=
  match ofMessage? t with
  | some m => m.readable
  | none => t

end Mismatch

end AvroIdl
