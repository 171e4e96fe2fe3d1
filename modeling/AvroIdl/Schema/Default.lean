import AvroIdl.Json.Print
import AvroIdl.Schema

/-!
# Defaults

Whether a JSON value can be the default of a field. `mismatch?` finds a value of the wrong type, and
`missing?` a record field that a value leaves out although it has no default of its own. Both look
at no more than a fixed number of nested types, and take what lies deeper as it is.
-/
namespace AvroIdl

namespace Schema

/-- Finds the type that a reference denotes, if it is known. -/
abbrev Lookup := Reference → Option Schema

/-- The lookup that knows no type. -/
def Lookup.none : Lookup := fun _ => .none

/-- The type that a reference denotes, and every other type itself. -/
def resolve? (lookup : Lookup) : Schema → Option Schema
  | reference r => lookup r
  | s => some s

end Schema

namespace Default

/-- Why a value does not fit a type. -/
inductive Mismatch where
  | wrongType (expected : Schema) (value : Json)
  | outsideInt (value : Int)
  | outsideLong (value : Int)
  | noSymbol (expected : Schema) (symbol : Text)
  | inField (field record : Text) (cause : Mismatch)
  deriving BEq, Repr

def Mismatch.message : Mismatch → Text
  | wrongType s v => "expected " ++ s.describe ++ ", got " ++ v.kindName
  | outsideInt i => "expected int, got integer " ++ Text.ofInt i ++ " outside the 32-bit range"
  | outsideLong i => "expected long, got integer " ++ Text.ofInt i ++ " outside the 64-bit range"
  | noSymbol s t => "expected a symbol of " ++ s.describe ++ ", got \"" ++ t ++ "\""
  | inField f r cause => "field '" ++ f ++ "' of " ++ r ++ ": " ++ cause.message

/-- The strings that stand for values that are not finite numbers. -/
def floatWords : List Text := ["NaN", "Infinity", "-Infinity"]

/-- Whether a value fits a primitive type, the range of integers apart. -/
def fitsPrimitive : Primitive → Json → Bool
  | .null, .null => true
  | .boolean, .bool _ => true
  | .int, .integer _ | .long, .integer _ => true
  | .float, .integer _ | .float, .float _ | .double, .integer _ | .double, .float _ => true
  | .float, .string s | .double, .string s => floatWords.contains s
  | .bytes, .string _ | .string, .string _ => true
  | _, _ => false

def primitiveMismatch? (target : Schema) (p : Primitive) (value : Json) : Option Mismatch :=
  if fitsPrimitive p value then
    match p, value with
    | .int, .integer i => if -(pow2 31 : Int) ≤ i ∧ i < pow2 31 then none else some (.outsideInt i)
    | .long, .integer i => if -(pow2 63 : Int) ≤ i ∧ i < pow2 63 then none else some (.outsideLong i)
    | _, _ => none
  else some (.wrongType target value)

def symbolMismatch? (target : Schema) (symbols : List Text) : Json → Option Mismatch
  | .string s => if symbols.contains s then none else some (.noSymbol target s)
  | value => some (.wrongType target value)

/-- Why a value does not fit a type, looking at no more than the given levels. A union takes what
one of its branches takes, and a type that is not known takes everything. -/
def mismatchWithin? (lookup : Schema.Lookup) : (levels : Nat) → Schema → Json → Option Mismatch
  | 0, _, _ => none
  | levels + 1, schema, value =>
    match schema.resolve? lookup with
    | none => none
    | some target =>
      match target with
      | .primitive p _ => primitiveMismatch? target p value
      | .fixed _ _ => if value.isString then none else some (.wrongType target value)
      | .enumeration _ symbols _ => symbolMismatch? target symbols value
      | .compound .array parts _ =>
        match value with
        | .array elements =>
          elements.findSome? fun e => parts.head?.bind fun s => mismatchWithin? lookup levels s e
        | _ => some (.wrongType target value)
      | .compound .map parts _ =>
        match value with
        | .object members =>
          members.findSome? fun (_, v) =>
            parts.head?.bind fun s => mismatchWithin? lookup levels s v
        | _ => some (.wrongType target value)
      | .compound (.union _) parts _ =>
        if parts.any fun s => (mismatchWithin? lookup levels s value).isNone then none
        else some (.wrongType target value)
      | .compound (.logical _ _ _) parts _ =>
        parts.head?.bind fun s => mismatchWithin? lookup levels s value
      | .record h _ fields =>
        match value with
        | .object members =>
          fields.findSome? fun f =>
            (Members.get? members f.name).bind fun v =>
              (mismatchWithin? lookup levels f.type v).map (.inField f.name h.name)
        | _ => some (.wrongType target value)
      | .reference _ => none

/-- The field of a record that a value leaves out. -/
structure MissingField where
  record : Text
  field : Text
  deriving DecidableEq, Repr

def MissingField.path (m : MissingField) : Text := m.record ++ "." ++ m.field

/-- The first field that a value leaves out although it has no default, looking at no more than the
given levels. Of the records of a union one has to be complete. -/
def missingWithin? (lookup : Schema.Lookup) : (levels : Nat) → Schema → Json → Option MissingField
  | 0, _, _ => none
  | levels + 1, schema, value =>
    match schema.resolve? lookup, value with
    | some (.record h _ fields), .object members =>
      fields.findSome? fun f =>
        match Members.get? members f.name with
        | none => if f.default.isNone then some ⟨h.name, f.name⟩ else none
        | some v => missingWithin? lookup levels f.type v
    | some (.compound (.union _) parts _), .object _ =>
      let records := (parts.filterMap (Schema.resolve? lookup)).filter (·.kind == .record)
      let results := records.map fun s => missingWithin? lookup levels s value
      if results.any Option.isNone then none else results.head?.join
    | some (.compound .array parts _), .array elements =>
      elements.findSome? fun e => parts.head?.bind fun s => missingWithin? lookup levels s e
    | some (.compound .map parts _), .object members =>
      members.findSome? fun (_, v) => parts.head?.bind fun s => missingWithin? lookup levels s v
    | _, _ => none

/-- The number of types that are looked at, one inside the other. -/
def levels : Nat := 257

/-- Why a value cannot be a default of the type. -/
def mismatch? (lookup : Schema.Lookup) (s : Schema) (value : Json) : Option Mismatch :=
  mismatchWithin? lookup levels s value

/-- A field without a default that a default of the type leaves out. -/
def missing? (lookup : Schema.Lookup) (s : Schema) (value : Json) : Option MissingField :=
  missingWithin? lookup levels s value

end Default

end AvroIdl
