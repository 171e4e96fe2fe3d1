import AvroIdl.Diagnostic
import AvroIdl.Json.Print
import AvroIdl.Schema

/-!
# Documents

A schema or protocol in its JSON form holds named types, wherever they are defined in it, and
messages. This module has what both reading and writing need, and the ways in which a document can
be wrong.
-/
namespace AvroIdl

/-- The content of a document. -/
structure Document where
  /-- The named types in the order of their definitions, an enclosing one before those inside. -/
  types : List Schema := []
  messages : List Message := []
  deriving BEq, Repr

namespace Document

inductive Problem where
  | noProtocolName
  /-- The value at a key is not what it has to be. -/
  | wrongValue (key owner expected : Text)
  | messageNotObject (name : Text)
  | missingInMessage (name key : Text)
  | tooDeep
  | nestedUnion
  | duplicateBranch (key : Text)
  | notSchema (typeName : Text)
  | noType (value : Json)
  /-- A type of the given word lacks what its elements, values or name are. -/
  | missingInType (word key : Text)
  | missingKey (owner key : Text)
  | duplicateSymbol (symbol owner : Text)
  | noSize (owner : Text)
  | sizeRange (size : Int) (owner : Text)
  | fieldsNotArray
  | unnamedField (value : Json)
  | duplicateField (owner : Text)
  | badOrder (owner : Text)
  deriving BEq, Repr

/-- The number of types that may enclose one. -/
def maxNesting : Nat := 256

/-- A key as it is shown in a message. -/
def shown (key : Text) : Text := "\"" ++ key ++ "\""

namespace Problem

def kind : Problem → Diagnostic.Kind
  | tooDeep => .nestingTooDeep
  | nestedUnion => .nestedUnion
  | duplicateBranch _ => .duplicateUnionBranch
  | duplicateSymbol _ _ => .duplicateEnumSymbol
  | sizeRange _ _ => .numericRangeError
  | duplicateField _ => .duplicateDefinition
  | _ => .importParseError

def message : Problem → Text
  | noProtocolName => "Protocol document has no \"protocol\" name."
  | wrongValue key owner expected => shown key ++ " of " ++ owner ++ " must be " ++ expected ++ "."
  | messageNotObject name => "Message '" ++ name ++ "' must be an object."
  | missingInMessage name key => "Message '" ++ name ++ "' has no " ++ shown key ++ "."
  | tooDeep => "Schema nesting exceeds " ++ Text.ofNat maxNesting ++ " levels."
  | nestedUnion => "Unions may not immediately contain other unions."
  | duplicateBranch key => "Duplicate branch '" ++ key ++ "' in union."
  | notSchema typeName => "Expected a schema, found " ++ typeName ++ "."
  | noType value => "Schema object has no \"type\": " ++ value.compact
  | missingInType word key => word ++ " schema has no " ++ shown key ++ "."
  | missingKey owner key => owner ++ " has no " ++ shown key ++ "."
  | duplicateSymbol symbol owner => "Duplicate enum symbol '" ++ symbol ++ "' in " ++ owner ++ "."
  | noSize owner => owner ++ " needs an integer \"size\"."
  | sizeRange size owner =>
    "Fixed size " ++ Text.ofInt size ++ " of " ++ owner ++ " is outside the range 0..4294967295."
  | fieldsNotArray => "\"fields\" must be an array."
  | unnamedField value => "Field has no \"name\": " ++ value.compact
  | duplicateField owner => "Duplicate " ++ owner ++ "."
  | badOrder owner => "\"order\" of " ++ owner ++ " must be ascending, descending or ignore."

/-- The problem as a diagnostic of the document's file; JSON has no places. -/
def diagnostic (p : Problem) (file : Text) : Diagnostic :=
  { kind := p.kind, message := p.message, file := file }

end Problem

end Document

end AvroIdl
