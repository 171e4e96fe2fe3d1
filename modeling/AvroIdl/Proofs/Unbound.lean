import AvroIdl.Proofs.Binding

/-!
# Schemas apart from their bindings

A binding is a place in one registry and means nothing in another. `unbound` takes the bindings of
all references away, so that two schemas are the same apart from their bindings exactly if they are
equal without them. Binding references changes nothing else.
-/
namespace AvroIdl

def Reference.unbound (r : Reference) : Reference := { r with binding := none }

namespace Schema

mutual

/-- The schema without the bindings of its references. -/
def unbound : Schema → Schema
  | reference r => reference r.unbound
  | record h e fields => record h e (unboundFields fields)
  | compound shape parts n => compound shape (unboundParts parts) n
  | s => s

def unboundFields : List (FieldOf Schema) → List (FieldOf Schema)
  | [] => []
  | ⟨name, type, doc, default, order, aliases, properties, span⟩ :: fields =>
    ⟨name, unbound type, doc, default, order, aliases, properties, span⟩ :: unboundFields fields

def unboundParts : List Schema → List Schema
  | [] => []
  | s :: parts => unbound s :: unboundParts parts

end

end Schema

/-- The field without the bindings in its type. -/
def FieldOf.unbound (f : Field) : Field := { f with type := f.type.unbound }

namespace Schema

theorem unboundFields_eq_map (fields : List Field) :
    unboundFields fields = fields.map FieldOf.unbound := by
  induction fields with
  | nil => simp [unboundFields]
  | cons f fields ih => simp [unboundFields, FieldOf.unbound, ih]

theorem unboundParts_eq_map (parts : List Schema) : unboundParts parts = parts.map unbound := by
  induction parts with
  | nil => simp [unboundParts]
  | cons p parts ih => simp [unboundParts, ih]

@[simp]
theorem unbound_record (h : Head) (e : Bool) (fields : List Field) :
    (record h e fields).unbound = record h e (fields.map FieldOf.unbound) := by
  rw [unbound, unboundFields_eq_map]

@[simp]
theorem unbound_compound (shape : Shape) (parts : List Schema) (n : Note) :
    (compound shape parts n).unbound = compound shape (parts.map unbound) n := by
  rw [unbound, unboundParts_eq_map]

@[simp]
theorem unbound_reference (r : Reference) : (reference r).unbound = reference r.unbound := rfl

@[simp]
theorem unbound_primitive (p : Primitive) (n : Note) :
    (primitive p n).unbound = primitive p n := rfl

@[simp]
theorem unbound_enumeration (h : Head) (symbols : List Text) (d : Option Text) :
    (enumeration h symbols d).unbound = enumeration h symbols d := rfl

@[simp]
theorem unbound_fixed (h : Head) (size : Nat) : (fixed h size).unbound = fixed h size := rfl

@[simp]
theorem full_unbound_reference (r : Reference) : r.unbound.full = r.full := rfl

theorem unbound_reference_bind (place : Placement) (r : Reference) :
    (r.bind place).unbound = r.unbound := by
  unfold Reference.bind
  split <;> rfl

/-- Binding changes nothing but bindings. -/
@[simp]
theorem unbound_bind (place : Placement) (levels : Nat) (s : Schema) :
    (bind place levels s).unbound = s.unbound := by
  induction s using Schema.induct generalizing levels with
  | primitive p n => simp
  | enumeration h symbols d => simp
  | fixed h size => simp
  | reference r =>
    cases levels with
    | zero => simp
    | succ levels => simp [unbound_reference_bind]
  | record h e fields ih =>
    cases levels with
    | zero => simp
    | succ levels =>
      simp only [bind_record, unbound_record, List.map_map, record.injEq, true_and]
      refine List.map_congr_left fun f hf => ?_
      simp [FieldOf.unbound, ih f hf levels]
  | compound shape parts n ih =>
    cases levels with
    | zero => simp
    | succ levels =>
      simp only [bind_compound, unbound_compound, List.map_map, compound.injEq, true_and, and_true]
      exact List.map_congr_left fun p hp => ih p hp levels

@[simp]
theorem unbound_bindAll (place : Placement) (s : Schema) :
    (s.bindAll place).unbound = s.unbound :=
  unbound_bind place bindingLevels s

/-! ### What a schema is called does not depend on bindings -/

@[simp]
theorem ownName_unbound (s : Schema) : s.unbound.ownName = s.ownName := by
  cases s <;> simp [ownName, Reference.unbound]

@[simp]
theorem kind_unbound (s : Schema) : s.unbound.kind = s.kind := by
  cases s with
  | compound shape parts n => cases shape <;> simp [kind]
  | _ => simp [kind]

theorem core_unbound (s : Schema) : s.unbound.core = s.core.unbound := by
  cases s with
  | compound shape parts n =>
    cases shape with
    | logical k precision scale => cases parts <;> simp [core]
    | _ => simp [core]
  | _ => simp [core]

@[simp]
theorem full_unbound (s : Schema) : s.unbound.full = s.full := by
  simp [full, core_unbound]

@[simp]
theorem isNamed_unbound (s : Schema) : s.unbound.isNamed = s.isNamed := by
  cases s with
  | compound shape parts n =>
    cases shape with
    | logical k precision scale =>
      cases parts with
      | nil => simp [isNamed]
      | cons base rest => cases base <;> simp [isNamed]
    | _ => simp [isNamed]
  | _ => simp [isNamed]

end Schema

namespace Message

/-- The message without the bindings in its types. -/
def unbound (m : Message) : Message :=
  { m with
    request := m.request.map FieldOf.unbound
    response := m.response.unbound
    errors := m.errors.map fun es => es.map Schema.unbound }

@[simp]
theorem unbound_bindAll (place : Placement) (m : Message) :
    (m.bindAll place).unbound = m.unbound := by
  have hrequest : ((m.bindAll place).request).map FieldOf.unbound =
      m.request.map FieldOf.unbound := by
    simp [bindAll, FieldOf.unbound]
  have herrors : ((m.bindAll place).errors).map (fun es => es.map Schema.unbound) =
      m.errors.map fun es => es.map Schema.unbound := by
    cases he : m.errors <;> simp [bindAll, he]
  simp only [unbound, hrequest, herrors]
  simp [bindAll]

end Message

namespace Registry

/-- The entry without the bindings in its type. -/
def Entry.unbound (e : Entry) : Entry := { e with schema := e.schema.unbound }

section Resolution

variable (r : Registry) (messages : List Message) (main : Option Schema)

/-- Resolving changes nothing of the registered types but bindings. -/
theorem unbound_entries_resolveAll :
    (r.resolveAll messages main).registry.entries.map Entry.unbound =
      r.entries.map Entry.unbound := by
  simp [resolveAll, Entry.unbound]

theorem unbound_messages_resolveAll :
    (r.resolveAll messages main).messages.map Message.unbound = messages.map Message.unbound := by
  simp [resolveAll]

end Resolution

end Registry

end AvroIdl
