import AvroIdl.Diagnostic
import AvroIdl.Diagnostic.Suggestion
import AvroIdl.Schema.Default

/-!
# The registry of named types

The named types of one compilation in the order of their registration, each with the file that it
comes from. Full names are unique. References are bound to places in the registry, and defaults are
checked against the types that they find there.
-/
namespace AvroIdl

structure Registry.Entry where
  schema : Schema
  origin : Text
  deriving BEq, Repr

structure Registry where
  /-- The file that is compiled. -/
  file : Text := []
  entries : List Registry.Entry := []
  deriving BEq, Repr

namespace Registry

/-- The full names in the order of registration. -/
def names (r : Registry) : List Text := r.entries.map fun e => e.schema.full

def size (r : Registry) : Nat := r.entries.length

/-- The place of a full name. -/
def indexOf? (r : Registry) (full : Text) : Option Nat := r.names.idxOf? full

def contains (r : Registry) (full : Text) : Bool := r.names.contains full

def entry? (r : Registry) (full : Text) : Option Entry :=
  (r.indexOf? full).bind fun i => r.entries[i]?

def find? (r : Registry) (full : Text) : Option Schema := (r.entry? full).map (·.schema)

/-- The type of a reference: the one it is bound to, or the one of its name. -/
def lookup (r : Registry) : Schema.Lookup := fun ref =>
  match ref.binding.bind fun i => r.entries[i]? with
  | some e => some e.schema
  | none => r.find? ref.full

/-- Why a type cannot be registered. -/
inductive Problem where
  | unnamed (s : Schema)
  | illegalName (core : Schema)
  /-- A type of that name is there, from the given file. -/
  | duplicate (core : Schema) (origin : Text)
  deriving BEq, Repr

/-- The problem as a diagnostic of the file that declares the type. -/
def Problem.diagnostic (file : Text) : Problem → Diagnostic
  | unnamed s =>
    { kind := .invalidName, span := s.span, file := file
      message :=
        "Only records, enums and fixed types can be registered, not " ++ s.describe ++ "." }
  | illegalName core =>
    { kind := .invalidName, span := core.span, file := file
      message := "Illegal type name '" ++ core.full ++ "'." }
  | duplicate core origin =>
    { kind := .duplicateDefinition, span := core.span, file := file
      message := "Type '" ++ core.full ++ "' is already defined."
      help := if origin = file then none else some ("first defined in '" ++ origin ++ "'") }

/-- Whether a name and namespace may be registered; a given namespace must not be empty. -/
def isLegalName (name : Text) (space : Option Text) : Bool :=
  Name.isValid name && space.all Name.isValidNamespace

/-- Registers a type of a file. -/
def insert (r : Registry) (s : Schema) (origin : Text) : Except Problem Registry :=
  if !s.isNamed then .error (.unnamed s)
  else if !isLegalName s.core.ownName.1 s.core.ownName.2 then .error (.illegalName s.core)
  else
    match r.entry? s.full with
    | some e => .error (.duplicate s.core e.origin)
    | none => .ok { r with entries := r.entries ++ [⟨s, origin⟩] }

/-- A new name comes after those that are there. -/
theorem names_of_insert {r r' : Registry} {s : Schema} {origin : Text}
    (h : r.insert s origin = .ok r') : r'.names = r.names ++ [s.full] := by
  unfold insert at h
  split at h
  · cases h
  · split at h
    · cases h
    · split at h
      · cases h
      · cases h
        simp [names]

/-- Registers a type of a file; without an origin it comes from the file that is compiled. -/
def register (r : Registry) (s : Schema) (origin : Text) : Except Diagnostic Registry :=
  let origin := if origin.isEmpty then r.file else origin
  match r.insert s origin with
  | .ok r => .ok r
  | .error p => .error (p.diagnostic origin)

/-- The entries, and the registry without them. -/
def release (r : Registry) : List Entry × Registry := (r.entries, { r with entries := [] })

end Registry

end AvroIdl
