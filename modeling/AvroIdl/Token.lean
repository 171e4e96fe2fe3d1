import AvroIdl.Source

/-!
# Tokens

The words and marks of the language. Every keyword may also stand where a name is expected, so a
token keeps the text it was written with.
-/
namespace AvroIdl

inductive Keyword where
  | protocol
  | nameSpace
  | importFrom
  | idl
  | schema
  | enum
  | fixed
  | error
  | record
  | array
  | map
  | union
  | boolean
  | int
  | long
  | float
  | double
  | string
  | bytes
  | null
  | true
  | false
  | decimal
  | date
  | timeMs
  | timestampMs
  | localTimestampMs
  | uuid
  | void
  | oneway
  | throws
  deriving DecidableEq, Repr

namespace Keyword

def all : List Keyword :=
  [protocol, nameSpace, importFrom, idl, schema, enum, fixed, error, record, array, map, union,
    boolean, int, long, float, double, string, bytes, null, true, false, decimal, date, timeMs,
    timestampMs, localTimestampMs, uuid, void, oneway, throws]

def text : Keyword → Text
  | protocol => "protocol"
  | nameSpace => "namespace"
  | importFrom => "import"
  | idl => "idl"
  | schema => "schema"
  | enum => "enum"
  | fixed => "fixed"
  | error => "error"
  | record => "record"
  | array => "array"
  | map => "map"
  | union => "union"
  | boolean => "boolean"
  | int => "int"
  | long => "long"
  | float => "float"
  | double => "double"
  | string => "string"
  | bytes => "bytes"
  | null => "null"
  | true => "true"
  | false => "false"
  | decimal => "decimal"
  | date => "date"
  | timeMs => "time_ms"
  | timestampMs => "timestamp_ms"
  | localTimestampMs => "local_timestamp_ms"
  | uuid => "uuid"
  | void => "void"
  | oneway => "oneway"
  | throws => "throws"

/-- The keyword that is spelt so. -/
def ofText? (t : Text) : Option Keyword := all.find? fun k => k.text == t

/-- Whether the keyword names a type without further parts, or a decimal type. -/
def isType : Keyword → Bool
  | boolean | int | long | float | double | string | bytes | null | decimal | date | timeMs
  | timestampMs | localTimestampMs | uuid => Bool.true
  | _ => Bool.false

end Keyword

inductive Mark where
  | leftBrace
  | rightBrace
  | leftParen
  | rightParen
  | leftBracket
  | rightBracket
  | lessThan
  | greaterThan
  | comma
  | colon
  | semicolon
  | equals
  | at
  | question
  deriving DecidableEq, Repr

namespace Mark

def all : List Mark :=
  [leftBrace, rightBrace, leftParen, rightParen, leftBracket, rightBracket, lessThan, greaterThan,
    comma, colon, semicolon, equals, .at, question]

def byte : Mark → UInt8
  | leftBrace => 0x7B
  | rightBrace => 0x7D
  | leftParen => 0x28
  | rightParen => 0x29
  | leftBracket => 0x5B
  | rightBracket => 0x5D
  | lessThan => 0x3C
  | greaterThan => 0x3E
  | comma => 0x2C
  | colon => 0x3A
  | semicolon => 0x3B
  | equals => 0x3D
  | .at => 0x40
  | question => 0x3F

/-- The mark that is written as this byte. -/
def ofByte? (b : UInt8) : Option Mark := all.find? fun m => m.byte == b

end Mark

namespace Token

inductive Kind where
  | endOfFile
  | identifier
  | integer
  | float
  | string
  | keyword (k : Keyword)
  | mark (m : Mark)
  deriving DecidableEq, Repr

namespace Kind

def all : List Kind :=
  [endOfFile, identifier, integer, float, string] ++ Keyword.all.map keyword ++ Mark.all.map mark

/-- The spelling of a keyword or mark, and the name of any other class of tokens. -/
def text : Kind → Text
  | endOfFile => "<EOF>"
  | identifier => "IdentifierToken"
  | integer => "IntegerLiteral"
  | float => "FloatingPointLiteral"
  | string => "StringLiteral"
  | keyword k => k.text
  | mark m => [m.byte]

def ofText? (t : Text) : Option Kind := all.find? fun k => k.text == t

def isKeyword : Kind → Bool
  | keyword _ => true
  | _ => false

/-- A name may be spelt like a keyword. -/
def isName : Kind → Bool
  | identifier | keyword _ => true
  | _ => false

def isType : Kind → Bool
  | keyword k => k.isType
  | _ => false

end Kind

end Token

structure Token where
  kind : Token.Kind := .endOfFile
  span : Span := {}
  text : Text := []
  /-- Whether a part of the name was written between backticks. -/
  escaped : Bool := false
  /-- The number of the documentation comment that stands right before the token. -/
  doc : Option Nat := none
  deriving DecidableEq, Repr

/-- A comment that may document the declaration after it, with its delimiters. -/
structure DocComment where
  text : Text
  span : Span := {}
  deriving DecidableEq, Repr

end AvroIdl
