import AvroIdl.Schema

/-!
# Logical types

A primitive or fixed type with a known `logicalType` property becomes a logical type over itself.
Unknown names, bases that do not fit and invalid parameters leave the type as it is.
-/
namespace AvroIdl

/-- Whether a type may carry the meaning. -/
def LogicalKind.accepts : LogicalKind → Schema.Kind → Bool
  | decimal, base => base == .primitive .bytes || base == .fixed
  | date, base | timeMillis, base => base == .primitive .int
  | timestampMillis, base | localTimestampMillis, base => base == .primitive .long
  | uuid, base => base == .primitive .string
  | duration, base => base == .fixed

namespace Decimal

/-- The largest precision and scale. -/
def parameterLimit : Nat := pow2 31 - 1

/-- The digits that every number of the given bits can have: `bits · log₁₀ 2` rounded down. -/
def digitsOfBits (bits : Nat) : Nat := bits * 30102999566398119521373889472449302676 / pow10 38

/-- The largest precision of a decimal in a fixed type of the given number of bytes. -/
def maxPrecision (size : Nat) : Nat :=
  if size = 0 then 0 else min parameterLimit (digitsOfBits (8 * size - 1))

/-- A precision or scale among the properties, if it is a whole number within the limit. -/
def parameter? (properties : Members) (key : Text) : Option Nat :=
  match properties.get? key with
  | some (.integer i) => if 0 ≤ i ∧ i ≤ parameterLimit then some i.toNat else none
  | _ => none

/-- The scale among the properties, which is zero if it is not given. -/
def scale? (properties : Members) : Option Nat :=
  if properties.contains "scale" then parameter? properties "scale" else some 0

end Decimal

namespace Schema

/-- A logical type over a base, at the place of the base. -/
def logicalOver (kind : LogicalKind) (precision scale : Nat) (properties : Members)
    (base : Schema) : Schema :=
  compound (.logical kind precision scale) [base] ⟨properties, base.span⟩

/-- The size of a fixed type. -/
def fixedSize? : Schema → Option Nat
  | fixed _ n => some n
  | _ => none

/-- The precision and scale with which a type becomes logical, if its parameters allow it. -/
def logicalParameters? (kind : LogicalKind) (base : Schema) : Option (Nat × Nat) :=
  match kind with
  | .decimal => do
    let precision ← Decimal.parameter? base.properties "precision"
    let scale ← Decimal.scale? base.properties
    let fits := base.fixedSize?.all fun size => precision ≤ Decimal.maxPrecision size
    if 1 ≤ precision ∧ scale ≤ precision ∧ fits then some (precision, scale) else none
  | .duration => if base.fixedSize? = some 12 then some (0, 0) else none
  | _ => some (0, 0)

/-- The properties that a logical type takes in. -/
def logicalKeys : LogicalKind → List Text
  | .decimal => ["logicalType", "precision", "scale"]
  | _ => ["logicalType"]

/-- The type with the meaning that its properties ask for. -/
def promote (base : Schema) : Schema :=
  let name? := (base.properties.get? "logicalType").bind Json.string?
  match name?.bind LogicalKind.ofText? with
  | none => base
  | some kind =>
    if kind.accepts base.kind then
      match logicalParameters? kind base with
      | none => base
      | some (precision, scale) =>
        logicalOver kind precision scale (base.properties.without (logicalKeys kind))
          (base.mapNote fun n => { n with properties := [] })
    else base

end Schema

end AvroIdl
