import AvroIdl.Registry

/-!
# Binding references

Every reference in the registered types, the messages and the main schema is bound to the place of
its name in the registry. All names that are not there are reported together. References that lie
deeper than the limit are neither bound nor reported.
-/
namespace AvroIdl

/-- The places of full names. -/
abbrev Placement := Text → Option Nat

/-- Binds a reference to the place of its name; without one it stays as it is. -/
def Reference.bind (place : Placement) (r : Reference) : Reference :=
  match place r.full with
  | some i => { r with binding := some i }
  | none => r

namespace Schema

mutual

/-- The references in a type in the order in which they stand, within the given levels. -/
def references : (levels : Nat) → Schema → List Reference
  | 0, _ => []
  | _ + 1, reference r => [r]
  | levels + 1, record _ _ fields => fieldReferences levels fields
  | levels + 1, compound _ parts _ => partReferences levels parts
  | _ + 1, _ => []

def fieldReferences : (levels : Nat) → List (FieldOf Schema) → List Reference
  | _, [] => []
  | levels, ⟨_, type, _, _, _, _, _, _⟩ :: fields =>
    references levels type ++ fieldReferences levels fields

def partReferences : (levels : Nat) → List Schema → List Reference
  | _, [] => []
  | levels, s :: parts => references levels s ++ partReferences levels parts

end

mutual

/-- The type with its references bound, within the given levels. -/
def bind (place : Placement) : (levels : Nat) → Schema → Schema
  | 0, s => s
  | _ + 1, reference r => reference (r.bind place)
  | levels + 1, record h e fields => record h e (bindFields place levels fields)
  | levels + 1, compound shape parts n => compound shape (bindParts place levels parts) n
  | _ + 1, s => s

def bindFields (place : Placement) : (levels : Nat) → List (FieldOf Schema) → List (FieldOf Schema)
  | _, [] => []
  | levels, ⟨name, type, doc, default, order, aliases, properties, span⟩ :: fields =>
    ⟨name, bind place levels type, doc, default, order, aliases, properties, span⟩ ::
      bindFields place levels fields

def bindParts (place : Placement) : (levels : Nat) → List Schema → List Schema
  | _, [] => []
  | levels, s :: parts => bind place levels s :: bindParts place levels parts

end

/-- The number of types in which a reference is looked for, one inside the other. -/
def bindingLevels : Nat := 257

/-- All references of a type that are looked at. -/
def allReferences (s : Schema) : List Reference := references bindingLevels s

/-- The type with those references bound. -/
def bindAll (place : Placement) (s : Schema) : Schema := bind place bindingLevels s

end Schema

namespace Message

/-- The references in the parameters, the response and the errors, in this order. -/
def allReferences (m : Message) : List Reference :=
  m.request.flatMap (fun f => f.type.allReferences) ++ m.response.allReferences ++
    (m.errors.getD []).flatMap Schema.allReferences

def bindAll (place : Placement) (m : Message) : Message :=
  { m with
    request := m.request.map fun f => { f with type := f.type.bindAll place }
    response := m.response.bindAll place
    errors := m.errors.map fun es => es.map (Schema.bindAll place) }

end Message

namespace Registry

/-- The references outside the registry belong to the file that is compiled, and those inside to
the file of their type. -/
def locatedReferences (r : Registry) (messages : List Message) (main : Option Schema) :
    List (Text × Reference) :=
  r.entries.flatMap (fun e => e.schema.allReferences.map fun ref => (e.origin, ref)) ++
    (messages.flatMap Message.allReferences ++
      main.toList.flatMap Schema.allReferences).map fun ref => (r.file, ref)

/-- A reference to a name that is not registered. -/
def unresolved (r : Registry) (file : Text) (ref : Reference) : Diagnostic :=
  { kind := .unresolvedReference, span := ref.span, file := file
    message := "Undefined name '" ++ ref.full ++ "'."
    help := (Suggestion.of? ref.full r.names).map Suggestion.message }

/-- The references to names that are not registered, bundled at the first of them. -/
def unresolvedBundle (r : Registry) : List (Text × Reference) → Option Diagnostic
  | [] => none
  | (file, ref) :: rest =>
    let all := (file, ref) :: rest
    let count : Text :=
      if rest.isEmpty then "Found 1 undefined type name: "
      else "Found " ++ Text.ofNat all.length ++ " undefined type names: "
    some
      { kind := .unresolvedReferences, span := ref.span, file := file
        message := count ++ Text.join ", " (all.map fun (_, u) => "'" ++ u.full ++ "'")
        related := all.map fun (f, u) => r.unresolved f u }

/-- What is left when all references have been bound as far as they can be. -/
structure Resolution where
  registry : Registry
  messages : List Message
  main : Option Schema
  failure : Option Diagnostic
  deriving BEq, Repr

/-- Binds the references of the registered types, the messages and the main schema. -/
def resolveAll (r : Registry) (messages : List Message) (main : Option Schema) : Resolution :=
  { registry :=
      { r with entries := r.entries.map fun e => { e with schema := e.schema.bindAll r.indexOf? } }
    messages := messages.map (Message.bindAll r.indexOf?)
    main := main.map (Schema.bindAll r.indexOf?)
    failure :=
      r.unresolvedBundle
        ((r.locatedReferences messages main).filter fun (_, ref) => !r.contains ref.full) }

/-- What is wrong with the default of a field or parameter; the owner is described in words. -/
def defaultProblem? (r : Registry) (owner file : Text) (f : Field) : Option Diagnostic :=
  f.default.bind fun value =>
    match Default.mismatch? r.lookup f.type value with
    | some m =>
      some
        { kind := .invalidDefault, span := f.span, file := file
          message :=
            "Invalid default for field '" ++ f.name ++ "' in " ++ owner ++ ": " ++ m.message ++
              "." }
    | none =>
      (Default.missing? r.lookup f.type value).map fun m =>
        { kind := .incompleteRecordDefault, span := f.span, file := file
          message :=
            "Default for field '" ++ f.name ++ "' in " ++ owner ++ " does not set '" ++ m.path ++
              "', which has no default." }

/-- The problems of all defaults: those of the registered records, then those of the parameters. -/
def validateDefaults (r : Registry) (messages : List Message) : List Diagnostic :=
  r.entries.flatMap (fun e =>
    match e.schema with
    | .record h _ fields =>
      fields.filterMap (r.defaultProblem? ("record '" ++ h.full ++ "'") e.origin)
    | _ => []) ++
  messages.flatMap fun m =>
    m.request.filterMap (r.defaultProblem? ("message '" ++ m.name ++ "'") r.file)

end Registry

end AvroIdl
