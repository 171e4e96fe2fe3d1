import AvroIdl.Json
import AvroIdl.Name

/-!
# Schemas

The model of types, whatever they were read from. Records, enums and fixed types have names and are
kept in a registry; inside other types they are referred to by name. Fields and messages follow.
-/
namespace AvroIdl

/-- The types without parts. -/
inductive Primitive where
  | null
  | boolean
  | int
  | long
  | float
  | double
  | bytes
  | string
  deriving DecidableEq, Repr

namespace Primitive

def all : List Primitive := [null, boolean, int, long, float, double, bytes, string]

def text : Primitive → Text
  | null => "null"
  | boolean => "boolean"
  | int => "int"
  | long => "long"
  | float => "float"
  | double => "double"
  | bytes => "bytes"
  | string => "string"

def ofText? (name : Text) : Option Primitive := all.find? fun p => p.text == name

end Primitive

/-- The meanings that a type may add to its base. -/
inductive LogicalKind where
  | decimal
  | date
  | timeMillis
  | timestampMillis
  | localTimestampMillis
  | uuid
  | duration
  deriving DecidableEq, Repr

namespace LogicalKind

def all : List LogicalKind :=
  [decimal, date, timeMillis, timestampMillis, localTimestampMillis, uuid, duration]

def text : LogicalKind → Text
  | decimal => "decimal"
  | date => "date"
  | timeMillis => "time-millis"
  | timestampMillis => "timestamp-millis"
  | localTimestampMillis => "local-timestamp-millis"
  | uuid => "uuid"
  | duration => "duration"

def ofText? (name : Text) : Option LogicalKind := all.find? fun k => k.text == name

end LogicalKind

/-- How the values of a field are compared. -/
inductive FieldOrder where
  | ascending
  | descending
  | ignore
  deriving DecidableEq, Repr

namespace FieldOrder

def all : List FieldOrder := [ascending, descending, ignore]

def text : FieldOrder → Text
  | ascending => "ascending"
  | descending => "descending"
  | ignore => "ignore"

def ofText? (t : Text) : Option FieldOrder := all.find? fun o => o.text == t

end FieldOrder

/-- What every type may carry: further properties and its place in a source. -/
structure Note where
  properties : Members := []
  span : Option Span := none
  deriving BEq, Repr

/-- What every named type carries. -/
structure Head extends Note where
  name : Text := []
  space : Option Text := none
  doc : Option Text := none
  aliases : List Text := []
  deriving BEq, Repr

def Head.full (h : Head) : Text := fullName h.name h.space

/-- A named type where it is used. -/
structure Reference extends Note where
  name : Text
  space : Option Text := none
  /-- The place of the type in the registry, once it is known. -/
  binding : Option Nat := none
  deriving BEq, Repr

def Reference.full (r : Reference) : Text := fullName r.name r.space

/-- A field of a record or a parameter of a message, over the type of its types. -/
structure FieldOf (σ : Type) where
  name : Text
  type : σ
  doc : Option Text := none
  default : Option Json := none
  order : Option FieldOrder := none
  aliases : List Text := []
  properties : Members := []
  span : Option Span := none
  deriving BEq, Repr

/-- The ways to build a type from others. -/
inductive Shape where
  /-- One part, the type of the elements. -/
  | array
  /-- One part, the type of the values. -/
  | map
  /-- The branches; `isOptional` if it was written with a question mark. -/
  | union (isOptional : Bool)
  /-- One part, the base. Precision and scale belong to decimals. -/
  | logical (kind : LogicalKind) (precision scale : Nat)
  deriving DecidableEq, Repr

inductive Schema where
  | primitive (type : Primitive) (note : Note)
  | record (head : Head) (isError : Bool) (fields : List (FieldOf Schema))
  | enumeration (head : Head) (symbols : List Text) (default : Option Text)
  | fixed (head : Head) (size : Nat)
  | compound (shape : Shape) (parts : List Schema) (note : Note)
  | reference (r : Reference)
  deriving BEq, Repr

abbrev Field := FieldOf Schema

namespace Schema

/-- What kind of type a schema is. -/
inductive Kind where
  | primitive (type : Primitive)
  | record
  | enumeration
  | fixed
  | array
  | map
  | union
  | logical
  | reference
  deriving DecidableEq, Repr

namespace Kind

def all : List Kind :=
  Primitive.all.map primitive ++
    [record, enumeration, fixed, array, map, union, logical, reference]

def text : Kind → Text
  | primitive p => p.text
  | record => "record"
  | enumeration => "enum"
  | fixed => "fixed"
  | array => "array"
  | map => "map"
  | union => "union"
  | logical => "logical"
  | reference => "reference"

def isPrimitive : Kind → Bool
  | primitive _ => true
  | _ => false

end Kind

def kind : Schema → Kind
  | primitive p _ => .primitive p
  | record _ _ _ => .record
  | enumeration _ _ _ => .enumeration
  | fixed _ _ => .fixed
  | compound .array _ _ => .array
  | compound .map _ _ => .map
  | compound (.union _) _ _ => .union
  | compound (.logical _ _ _) _ _ => .logical
  | reference _ => .reference

def note : Schema → Note
  | primitive _ n | compound _ _ n => n
  | record h _ _ | enumeration h _ _ | fixed h _ => h.toNote
  | reference r => r.toNote

def mapNote (f : Note → Note) : Schema → Schema
  | primitive p n => primitive p (f n)
  | record h e fs => record { h with toNote := f h.toNote } e fs
  | enumeration h ss d => enumeration { h with toNote := f h.toNote } ss d
  | fixed h n => fixed { h with toNote := f h.toNote } n
  | compound s ps n => compound s ps (f n)
  | reference r => reference { r with toNote := f r.toNote }

def span (s : Schema) : Option Span := s.note.span

def properties (s : Schema) : Members := s.note.properties

/-- A primitive type without further properties. -/
def plain (p : Primitive) : Schema := primitive p {}

def isUnion (s : Schema) : Bool := s.kind == .union

/-- The head of a record, an enum or a fixed type. -/
def head? : Schema → Option Head
  | record h _ _ | enumeration h _ _ | fixed h _ => some h
  | _ => none

/-- A logical type stands for its base, and every other type for itself. -/
def core : Schema → Schema
  | compound (.logical _ _ _) (base :: _) _ => base
  | s => s

/-- Whether a schema can be registered: it is a record, an enum, a fixed type, or a logical type
over a fixed type. -/
def isNamed : Schema → Bool
  | record _ _ _ | enumeration _ _ _ | fixed _ _ => true
  | compound (.logical _ _ _) (fixed _ _ :: _) _ => true
  | _ => false

/-- The name and namespace that a schema itself has. -/
def ownName : Schema → Text × Option Text
  | record h _ _ | enumeration h _ _ | fixed h _ => (h.name, h.space)
  | reference r => (r.name, r.space)
  | _ => ([], none)

/-- The full name of a schema or of the base it stands for. -/
def full (s : Schema) : Text := fullName s.core.ownName.1 s.core.ownName.2

/-- What tells the branches of a union apart: the name of a named type, and otherwise the kind; a
logical type counts as its base. -/
def branchKey : Schema → Text
  | record h _ _ | enumeration h _ _ | fixed h _ => h.full
  | reference r => r.full
  | compound (.logical _ _ _) (base :: _) _ => branchKey base
  | s => s.kind.text

mutual

/-- A short description for diagnostics. -/
def describe : Schema → Text
  | record h isError _ => (if isError then "error " else "record ") ++ h.full
  | enumeration h _ _ => "enum " ++ h.full
  | fixed h _ => "fixed " ++ h.full
  | reference r => r.full
  | primitive p _ => p.text
  | compound .array parts _ => "array<" ++ (describeAll parts).headD [] ++ ">"
  | compound .map parts _ => "map<" ++ (describeAll parts).headD [] ++ ">"
  | compound (.union _) parts _ => "union [" ++ Text.join ", " (describeAll parts) ++ "]"
  | compound (.logical k _ _) parts _ =>
    match describeAll parts with
    | [] => k.text
    | base :: _ => k.text ++ " (" ++ base ++ ")"

def describeAll : List Schema → List Text
  | [] => []
  | s :: ss => describe s :: describeAll ss

end

end Schema

/-- A message of a protocol. -/
structure Message where
  name : Text
  doc : Option Text := none
  properties : Members := []
  request : List Field := []
  response : Schema := .plain .null
  /-- Absent if the message declares no errors. -/
  errors : Option (List Schema) := none
  isOneWay : Bool := false
  span : Option Span := none
  deriving BEq, Repr

structure Protocol where
  name : Text
  space : Option Text := none
  doc : Option Text := none
  properties : Members := []
  /-- The full names of its types in the order of registration. -/
  types : List Text := []
  messages : List Message := []
  deriving BEq, Repr

end AvroIdl
