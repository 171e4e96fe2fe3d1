import AvroIdl.Token

/-!
# Source trees

The declarations of a source as they are written. Literals keep their raw text; names are not yet
resolved.
-/
namespace AvroIdl

structure Identifier where
  text : Text := []
  escaped : Bool := false
  span : Span := {}
  deriving DecidableEq, Repr

/-- The JSON values without parts. -/
inductive JsonNode.Scalar where
  | string
  | integer
  | float
  | true
  | false
  | null
  deriving DecidableEq, Repr

/-- A JSON value in a source. Strings and numbers keep the text they are written with. -/
inductive JsonNode where
  | object (members : List (Text × Span × JsonNode)) (span : Span)
  | array (elements : List JsonNode) (span : Span)
  | scalar (kind : JsonNode.Scalar) (text : Text) (span : Span)
  deriving BEq, Repr

namespace JsonNode

def span : JsonNode → Span
  | object _ s | array _ s | scalar _ _ s => s

/-- The value that stands where none could be read. -/
def missing : JsonNode := scalar .null [] {}

end JsonNode

structure Annotation where
  name : Text
  value : JsonNode
  span : Span
  deriving BEq, Repr

/-- What every type may carry: annotations before it and a question mark after it. -/
structure TypeMark where
  annotations : List Annotation := []
  isOptional : Bool := false
  span : Span := {}
  deriving BEq, Repr

inductive TypeNode where
  | primitive (keyword : Keyword) (mark : TypeMark)
  | decimal (precision : Text) (scale : Option Text) (mark : TypeMark)
  | reference (name : Identifier) (mark : TypeMark)
  | array (items : TypeNode) (mark : TypeMark)
  | map (values : TypeNode) (mark : TypeMark)
  | union (branches : List TypeNode) (mark : TypeMark)
  deriving BEq, Repr

namespace TypeNode

def mark : TypeNode → TypeMark
  | primitive _ m | decimal _ _ m | reference _ m | array _ m | map _ m | union _ m => m

/-- The type that stands where none could be read. -/
def missing (annotations : List Annotation) : TypeNode :=
  primitive .null { annotations := annotations }

end TypeNode

/-- The name of a field or parameter with its default. -/
structure Declarator where
  doc : Option Text := none
  annotations : List Annotation := []
  name : Identifier := {}
  default : Option JsonNode := none
  span : Span := {}
  deriving BEq, Repr

/-- One type and the fields that have it. -/
structure FieldDecl where
  doc : Option Text
  type : TypeNode
  declarators : List Declarator
  span : Span
  deriving BEq, Repr

structure RecordDecl where
  doc : Option Text
  annotations : List Annotation
  isError : Bool
  name : Identifier
  fields : List FieldDecl
  span : Span
  deriving BEq, Repr

structure EnumDecl where
  doc : Option Text
  annotations : List Annotation
  name : Identifier
  symbols : List Identifier
  default : Option Identifier
  span : Span
  deriving BEq, Repr

structure FixedDecl where
  doc : Option Text
  annotations : List Annotation
  name : Identifier
  size : Text
  sizeSpan : Span
  span : Span
  deriving BEq, Repr

structure Parameter where
  type : TypeNode
  declarator : Declarator
  deriving BEq, Repr

/-- What a message returns. -/
inductive ResultType where
  | void (span : Span)
  | value (type : TypeNode)
  deriving BEq, Repr

structure MessageDecl where
  doc : Option Text
  annotations : List Annotation
  result : ResultType
  name : Identifier
  parameters : List Parameter
  isOneWay : Bool
  errors : Option (List Identifier)
  span : Span
  deriving BEq, Repr

inductive ImportKind where
  | idl
  | protocol
  | schema
  deriving DecidableEq, Repr

def ImportKind.text : ImportKind → Text
  | idl => "idl"
  | protocol => "protocol"
  | schema => "schema"

structure ImportDecl where
  kind : ImportKind := .idl
  location : Text := []
  span : Span := {}
  deriving DecidableEq, Repr

inductive Declaration where
  | file (d : ImportDecl)
  | record (d : RecordDecl)
  | enum (d : EnumDecl)
  | fixed (d : FixedDecl)
  | message (d : MessageDecl)
  deriving BEq, Repr

structure ProtocolDecl where
  doc : Option Text
  annotations : List Annotation
  name : Identifier
  body : List Declaration
  span : Span
  deriving BEq, Repr

/-- A source is one protocol, or a list of types with an optional namespace and main schema. -/
inductive SourceUnit.Body where
  | protocol (d : ProtocolDecl)
  | schemas (space : Option Identifier) (main : Option TypeNode) (declarations : List Declaration)
  deriving BEq, Repr

structure SourceUnit where
  body : SourceUnit.Body := .schemas none none []
  /-- Documentation comments that document nothing, in the order of the source. -/
  orphans : List Span := []
  deriving BEq, Repr

end AvroIdl
