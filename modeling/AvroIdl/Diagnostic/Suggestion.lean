import AvroIdl.Text.Distance

/-!
# Suggestions for an undefined type name
-/
namespace AvroIdl

/-- The simple name behind the last dot. -/
def simpleName (name : Text) : Text :=
  match Text.splitLast Byte.dot name with
  | some (_, last) => last
  | none => name

/-- What an undefined type name was probably meant to be. -/
inductive Suggestion where
  /-- A primitive type written with other capitals. -/
  | casing (primitive : Text)
  /-- A primitive type, misspelt. -/
  | primitive (name : Text)
  /-- A type that has been declared. -/
  | declared (name : Text)
  deriving DecidableEq, Repr

namespace Suggestion

def primitiveNames : List Text :=
  ["null", "boolean", "int", "long", "float", "double", "bytes", "string"]

/-- Another capitalisation of a primitive comes first, then a misspelt primitive, then the nearest
declared name, and last a declared type of the same simple name in another namespace. -/
def of? (name : Text) (declaredNames : List Text) : Option Suggestion :=
  let simple := simpleName name
  let sameLetters (p : Text) : Bool := simple != p && simple.map Byte.toLower == p
  match primitiveNames.find? sameLetters with
  | some p => some (casing p)
  | none =>
    match primitiveNames.find? (Distance.isNear simple) with
    | some p => some (primitive p)
    | none =>
      match Distance.closest name declaredNames with
      | some d => some (declared d)
      | none => (declaredNames.find? fun d => simpleName d == simple && d != name).map declared

def message : Suggestion → Text
  | casing p => "primitive type names are case-sensitive; did you mean '" ++ p ++ "'?"
  | primitive p => "did you mean the primitive type '" ++ p ++ "'?"
  | declared d => "did you mean '" ++ d ++ "'?"

end Suggestion

end AvroIdl
