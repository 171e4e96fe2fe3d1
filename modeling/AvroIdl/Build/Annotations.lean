import AvroIdl.Build.Problem
import AvroIdl.Literal.Value

/-!
# Annotations

Some annotations of a declaration have a meaning of their own, depending on what is declared; all
others are its properties. No annotation may be given twice.
-/
namespace AvroIdl.Build

/-- The annotations that have a meaning of their own. -/
structure Targets where
  space : Bool := false
  aliases : Bool := false
  order : Bool := false
  deriving DecidableEq, Repr

/-- What the annotations of a declaration say. -/
structure AnnotationSet where
  /-- The declared namespace, if one is declared; the empty one is none. -/
  space : Option (Option Text) := none
  aliases : Option (List Text) := none
  order : Option FieldOrder := none
  properties : Members := []
  deriving BEq, Repr

namespace AnnotationSet

def addSpace (set : AnnotationSet) (value : Json) : Except Problem AnnotationSet :=
  if set.space.isSome then .error .duplicateNamespace
  else
    match value with
    | .string s =>
      if s.isEmpty || Name.isValidNamespace s then
        .ok { set with space := some (normalizeNamespace (some s)) }
      else .error (.illegalNamespace s)
    | _ => .error .namespaceNotString

/-- The strings of an array that has nothing else. -/
def strings? : Json → Option (List Text)
  | .array elements => elements.mapM Json.string?
  | _ => none

def addAliases (set : AnnotationSet) (value : Json) : Except Problem AnnotationSet :=
  if set.aliases.isSome then .error (.duplicateIntercepted "aliases")
  else
    match strings? value with
    | some aliases => .ok { set with aliases := some aliases }
    | none => .error .aliasesNotStrings

/-- The order is given in any capitals. -/
def addOrder (set : AnnotationSet) (value : Json) : Except Problem AnnotationSet :=
  if set.order.isSome then .error (.duplicateIntercepted "order")
  else
    match value.string?.bind fun s => FieldOrder.ofText? (s.map Byte.toLower) with
    | some order => .ok { set with order := some order }
    | none => .error (if value.isPrintable then .badOrder value else .unprintableOrder value)

def addProperty (set : AnnotationSet) (name : Text) (value : Json) : Except Problem AnnotationSet :=
  if set.properties.contains name then .error (.duplicateProperty name)
  else .ok { set with properties := set.properties ++ [(name, value)] }

/-- Adds one annotation with its value. -/
def add (targets : Targets) (set : AnnotationSet) (name : Text) (value : Json) :
    Except Problem AnnotationSet :=
  if name = "namespace" ∧ targets.space then set.addSpace value
  else if name = "aliases" ∧ targets.aliases then set.addAliases value
  else if name = "order" ∧ targets.order then set.addOrder value
  else set.addProperty name value

/-- Adds annotations from the left, up to the first one that is wrong. -/
def collectFrom (file : Text) (targets : Targets) (set : AnnotationSet) :
    List Annotation → Except Diagnostic AnnotationSet
  | [] => .ok set
  | a :: as =>
    match Literal.decodeJson a.value with
    | .error (p, span) => .error (p.diagnostic file span)
    | .ok value =>
      match set.add targets a.name value with
      | .error p => .error (p.diagnostic file a.span)
      | .ok set => collectFrom file targets set as

/-- What a list of annotations says. -/
def collect (file : Text) (targets : Targets) (as : List Annotation) :
    Except Diagnostic AnnotationSet :=
  collectFrom file targets {} as

end AnnotationSet

end AvroIdl.Build
