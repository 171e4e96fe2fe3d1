import AvroIdl.Token
import Mathlib.Computability.Language
import Mathlib.Order.FixedPoints
import Mathlib.Order.CompletePartialOrder

/-!
# The grammar of the tokens

The language of the sources as a context-free grammar over the kinds of tokens. Every rule is a sum
of sequences. JSON values and types, which nest in themselves, are the least solutions of their
rules, so nothing bounds how deep they nest.
-/
namespace AvroIdl.TokenGrammar

open Computability

abbrev Kinds := Language Token.Kind

/-- One token. -/
def one (k : Token.Kind) : Kinds := {[k]}

def mark (m : Mark) : Kinds := one (.mark m)

def word (k : Keyword) : Kinds := one (.keyword k)

/-- One token of the kinds that have the property. -/
def oneOf (p : Token.Kind → Prop) : Kinds := {w | ∃ k, p k ∧ w = [k]}

/-- A name, which may be spelt like a keyword. -/
def name : Kinds := oneOf fun k => k.isName = true

/-- One after the other. -/
def seq (parts : List Kinds) : Kinds := parts.prod

/-- There or not. -/
def opt (L : Kinds) : Kinds := L + 1

/-- One or more with commas between them. -/
def list (L : Kinds) : Kinds := L * (mark .comma * L)∗

/-- The words that do not start with a token of the kinds. -/
def apart (kinds : List Token.Kind) (L : Kinds) : Kinds := {w ∈ L | ∀ k ∈ kinds, w.head? ≠ some k}

section Json

/-- What a JSON value is, if the values in it are of the language. -/
def jsonRule (J : Kinds) : Kinds :=
  seq [mark .leftBrace, opt (list (seq [one .string, mark .colon, J])), mark .rightBrace] +
    seq [mark .leftBracket, opt (list J), mark .rightBracket] +
    one .string + one .integer + one .float + word .true + word .false + word .null

theorem monotone_jsonRule : Monotone jsonRule := by
  intro J J' h
  simp only [jsonRule, seq, opt, list, List.prod_cons, List.prod_nil]
  gcongr

def json : Kinds := OrderHom.lfp ⟨jsonRule, monotone_jsonRule⟩

theorem json_eq : json = jsonRule json :=
  (OrderHom.map_lfp ⟨jsonRule, monotone_jsonRule⟩).symm

end Json

def annotation : Kinds := seq [mark .at, name, mark .leftParen, json, mark .rightParen]

def annotations : Kinds := annotation∗

section Types

/-- The word of a type without parts, or the name of another type. -/
def typeName : Kinds :=
  oneOf fun k => k.isName = true ∧
    k ∉ ([.keyword .array, .keyword .map, .keyword .union, .keyword .decimal,
      .keyword .void] : List Token.Kind)

/-- What a type without the annotations before it is, if the types in it are of the language. -/
def typeRule (T : Kinds) : Kinds :=
  seq [word .array, mark .lessThan, seq [annotations, T], mark .greaterThan] +
    seq [word .map, mark .lessThan, seq [annotations, T], mark .greaterThan] +
    seq [word .union, mark .leftBrace, list (seq [annotations, T]), mark .rightBrace] +
    seq [word .decimal, mark .leftParen, one .integer, opt (seq [mark .comma, one .integer]),
      mark .rightParen, opt (mark .question)] +
    seq [typeName, opt (mark .question)]

theorem monotone_typeRule : Monotone typeRule := by
  intro T T' h
  simp only [typeRule, seq, opt, list, List.prod_cons, List.prod_nil]
  gcongr

def plainType : Kinds := OrderHom.lfp ⟨typeRule, monotone_typeRule⟩

theorem plainType_eq : plainType = typeRule plainType :=
  (OrderHom.map_lfp ⟨typeRule, monotone_typeRule⟩).symm

end Types

def fullType : Kinds := seq [annotations, plainType]

def declarator : Kinds := seq [annotations, name, opt (seq [mark .equals, json])]

def field : Kinds := seq [fullType, list declarator, mark .semicolon]

def record : Kinds :=
  seq [word .record + word .error, name, mark .leftBrace, field∗, mark .rightBrace]

def enumeration : Kinds :=
  seq [word .enum, name, mark .leftBrace, opt (list name), mark .rightBrace,
    opt (seq [mark .equals, name, mark .semicolon])]

def fixed : Kinds :=
  seq [word .fixed, name, mark .leftParen, one .integer, mark .rightParen, mark .semicolon]

def parameter : Kinds := seq [fullType, declarator]

def message : Kinds :=
  seq [word .void + plainType, name, mark .leftParen, opt (list parameter), mark .rightParen,
    word .oneway + opt (seq [word .throws, list name]), mark .semicolon]

def importDecl : Kinds :=
  seq [word .importFrom, word .idl + word .protocol + word .schema, one .string, mark .semicolon]

/-- What may follow the annotations of a declaration. A message whose result is called like the
word of a definition is no message. -/
def definition (withMessages : Bool) : Kinds :=
  record + enumeration + fixed +
    if withMessages then
      apart [.keyword .record, .keyword .error, .keyword .enum, .keyword .fixed] message
    else 0

/-- An import has no annotations, and a message whose result is called `import` needs some. -/
def declaration (withMessages : Bool) : Kinds :=
  importDecl + apart [.keyword .importFrom] (seq [annotations, definition withMessages])

def protocol : Kinds :=
  seq [word .protocol, name, mark .leftBrace, (declaration true)∗, mark .rightBrace]

def schemas : Kinds :=
  seq [opt (seq [word .nameSpace, name, mark .semicolon]),
    opt (seq [word .schema, fullType, mark .semicolon]), (declaration false)∗]

def source : Kinds := seq [annotations, protocol] + schemas

/-- The token list is a source with the end of the file after it. -/
def Accepts (ts : List Token) : Prop :=
  ∃ front last, ts = front ++ [last] ∧ last.kind = .endOfFile ∧ front.map (·.kind) ∈ source

end AvroIdl.TokenGrammar
