import AvroIdl.Token

/-!
# Names and scopes

A name is a letter or underscore followed by letters, underscores and digits, and a namespace is one
or more names with dots between them. A scope is the namespace in force at a place: a name without a
dot is taken in it, and a dotted one says its own namespace.
-/
namespace AvroIdl

namespace Name

def isStart (b : UInt8) : Bool := Byte.isAlpha b || b == Byte.underscore

def isPart (b : UInt8) : Bool := isStart b || Byte.isDigit b

def isValid : Text → Bool
  | [] => false
  | b :: t => isStart b && t.all isPart

def isValidNamespace (t : Text) : Bool := (Text.split Byte.dot t).all isValid

/-- The words that name built-in types in the language. -/
def reserved : List Text :=
  ["null", "boolean", "int", "long", "float", "double", "bytes", "string", "date", "time_ms",
    "timestamp_ms", "local_timestamp_ms", "uuid", "decimal"]

def isReserved (t : Text) : Bool := reserved.contains t

/-- Why a type cannot have a name. -/
inductive Problem where
  | illegal (name : Text)
  | reserved (name : Text)
  | illegalNamespace (space name : Text)
  deriving DecidableEq, Repr

def Problem.message : Problem → Text
  | illegal n => "Illegal name '" ++ n ++ "'."
  | reserved n =>
    "Illegal name '" ++ n ++ "': it is a reserved type name; escape it as " ++
      [Byte.backtick] ++ n ++ [Byte.backtick] ++ " to use it."
  | illegalNamespace s n => "Illegal namespace '" ++ s ++ "' for '" ++ n ++ "'."

/-- The first rule that a type name breaks; a reserved word is allowed if it was escaped. -/
def problem? (name : Text) (space : Option Text) (escaped : Bool) : Option Problem :=
  if !isValid name then some (.illegal name)
  else if !escaped && isReserved name then some (.reserved name)
  else
    match space with
    | none => none
    | some s => if s.isEmpty || isValidNamespace s then none else some (.illegalNamespace s name)

end Name

/-- The empty namespace is no namespace. -/
def normalizeNamespace : Option Text → Option Text
  | some [] => none
  | space => space

/-- A simple name and its namespace. -/
structure QualifiedName where
  name : Text
  space : Option Text := none
  deriving DecidableEq, Repr

def QualifiedName.full (q : QualifiedName) : Text :=
  match q.space with
  | none => q.name
  | some s => s ++ "." ++ q.name

/-- The full name of a name in a namespace, where the empty namespace counts as none. -/
def fullName (name : Text) (space : Option Text) : Text :=
  QualifiedName.full ⟨name, normalizeNamespace space⟩

/-- The namespace in force, which is never the empty one. -/
structure Scope where
  current : Option Text := none
  proper : current ≠ some [] := by simp
  deriving DecidableEq

namespace Scope

theorem normalizeNamespace_ne_empty (space : Option Text) : normalizeNamespace space ≠ some [] := by
  unfold normalizeNamespace
  split <;> simp_all

/-- The scope of a namespace. -/
def of (space : Option Text) : Scope :=
  ⟨normalizeNamespace space, normalizeNamespace_ne_empty space⟩

/-- The scope inside a declaration; nothing of the outer one is left. -/
def enter (_ : Scope) (space : Option Text) : Scope := .of space

/-- The meaning of a name in the scope. -/
def qualify (s : Scope) (name : Text) : QualifiedName :=
  match Text.splitLast Byte.dot name with
  | none => ⟨name, s.current⟩
  | some (before, last) => ⟨last, normalizeNamespace (some before)⟩

end Scope

end AvroIdl
