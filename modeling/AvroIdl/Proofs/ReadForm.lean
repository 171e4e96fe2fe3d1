import AvroIdl.Proofs.ScopedNames

/-!
# What reading gives back

A document does not hold everything that a schema does. `asRead` is the form in which a schema comes
back from its document: without places, bindings and the mark of optional types, with references by
name alone, with aliases and namespaces as they are written, and without what is left out because it
says nothing. Properties whose key belongs to the written form itself are not there either.
-/
namespace AvroIdl

open Document

/-- The head as it is read where the given keys are its own. -/
def Head.asRead (h : Head) (keys : List Text) : Head :=
  { name := h.name, space := normalizeNamespace h.space, doc := h.doc
    aliases := h.aliases.map (shortAlias h.space), properties := h.properties.without keys }

def Reference.asRead (r : Reference) : Reference :=
  { name := r.name, space := normalizeNamespace r.space }

namespace Schema

/-- The keys that the written form of a type has itself. -/
def ownKeys : Schema → List Text
  | primitive _ _ => ["type"]
  | record _ _ _ => recordKeys
  | enumeration _ _ _ => enumKeys
  | fixed _ _ => fixedKeys
  | compound .array _ _ => ["type", "items"]
  | compound .map _ _ => ["type", "values"]
  | compound (.logical k _ _) (base :: _) _ => ownKeys base ++ logicalKeys k
  | _ => []

def noteAsRead (s : Schema) : Note := { properties := s.properties.without s.ownKeys }

mutual

def asRead : Schema → Schema
  | primitive p n => primitive p (primitive p n).noteAsRead
  | record h e fields => record (h.asRead recordKeys) e (fieldsAsRead fields)
  | enumeration h symbols d => enumeration (h.asRead enumKeys) symbols d
  | fixed h size => fixed (h.asRead fixedKeys) size
  | compound (.union o) parts n =>
    compound (.union false) (partsAsRead parts) (compound (.union o) parts n).noteAsRead
  | compound shape parts n => compound shape (partsAsRead parts) (compound shape parts n).noteAsRead
  | reference r => reference r.asRead

def fieldsAsRead : List (FieldOf Schema) → List (FieldOf Schema)
  | [] => []
  | ⟨name, type, doc, default, order, aliases, properties, _⟩ :: fields =>
    ⟨name, asRead type, doc, default, order.filter (· != .ascending), aliases,
      properties.without fieldKeys, none⟩ :: fieldsAsRead fields

def partsAsRead : List Schema → List Schema
  | [] => []
  | s :: parts => asRead s :: partsAsRead parts

end

end Schema

/-- A field or parameter as it is read; the ascending order is the same as none. -/
def FieldOf.asRead (f : Field) : Field :=
  { name := f.name, type := f.type.asRead, doc := f.doc, default := f.default
    order := f.order.filter (· != .ascending), aliases := f.aliases
    properties := f.properties.without fieldKeys }

/-- A message as it is read; an empty list of errors is the same as none. -/
def Message.asRead (m : Message) : Message :=
  { name := m.name, doc := m.doc, properties := m.properties.without messageKeys
    request := m.request.map FieldOf.asRead, response := m.response.asRead
    errors := (m.errors.filter fun es => !es.isEmpty).map fun es => es.map Schema.asRead
    isOneWay := m.isOneWay }

namespace Schema

theorem fieldsAsRead_eq_map (fields : List Field) :
    fieldsAsRead fields = fields.map FieldOf.asRead := by
  induction fields with
  | nil => simp [fieldsAsRead]
  | cons f fields ih => simp [fieldsAsRead, FieldOf.asRead, ih]

theorem partsAsRead_eq_map (parts : List Schema) : partsAsRead parts = parts.map asRead := by
  induction parts with
  | nil => simp [partsAsRead]
  | cons p parts ih => simp [partsAsRead, ih]

@[simp]
theorem asRead_primitive (p : Primitive) (n : Note) :
    (primitive p n).asRead = primitive p (primitive p n).noteAsRead := rfl

@[simp]
theorem asRead_record (h : Head) (e : Bool) (fields : List Field) :
    (record h e fields).asRead = record (h.asRead recordKeys) e (fields.map FieldOf.asRead) := by
  rw [← fieldsAsRead_eq_map]
  rfl

@[simp]
theorem asRead_enumeration (h : Head) (symbols : List Text) (d : Option Text) :
    (enumeration h symbols d).asRead = enumeration (h.asRead enumKeys) symbols d := rfl

@[simp]
theorem asRead_fixed (h : Head) (size : Nat) :
    (fixed h size).asRead = fixed (h.asRead fixedKeys) size := rfl

@[simp]
theorem asRead_union (o : Bool) (parts : List Schema) (n : Note) :
    (compound (.union o) parts n).asRead =
      compound (.union false) (parts.map asRead) (compound (.union o) parts n).noteAsRead := by
  rw [← partsAsRead_eq_map]
  rfl

theorem asRead_compound {shape : Shape} (h : ∀ o, shape ≠ .union o) (parts : List Schema)
    (n : Note) :
    (compound shape parts n).asRead =
      compound shape (parts.map asRead) (compound shape parts n).noteAsRead := by
  rw [← partsAsRead_eq_map]
  cases shape with
  | union o => exact absurd rfl (h o)
  | _ => rfl

@[simp]
theorem asRead_reference (r : Reference) : (reference r).asRead = reference r.asRead := rfl

@[simp]
theorem isUnion_asRead (s : Schema) : s.asRead.isUnion = s.isUnion := by
  cases s with
  | compound shape parts n => cases shape <;> simp [asRead, isUnion, kind]
  | _ => simp [isUnion, kind]

theorem full_asRead_head (h : Head) (keys : List Text) : (h.asRead keys).full = h.full := by
  simp [Head.full, Head.asRead, fullName]

theorem full_asRead_reference (r : Reference) : r.asRead.full = r.full := by
  simp [Reference.full, Reference.asRead, fullName]

@[simp]
theorem branchKey_asRead (s : Schema) : s.asRead.branchKey = s.branchKey := by
  induction s using Schema.induct with
  | primitive p n => simp [branchKey, kind]
  | record h e fields ih => simp [branchKey, full_asRead_head]
  | enumeration h symbols d => simp [branchKey, full_asRead_head]
  | fixed h size => simp [branchKey, full_asRead_head]
  | reference r => simp [branchKey, full_asRead_reference]
  | compound shape parts n ih =>
    cases shape with
    | logical k precision scale =>
      cases parts with
      | nil => simp [asRead, partsAsRead, branchKey, kind]
      | cons base rest =>
        have hbase := ih base List.mem_cons_self
        simp [asRead, partsAsRead, branchKey, hbase]
    | union o => simp [branchKey, kind]
    | array => simp [asRead, branchKey, kind]
    | map => simp [asRead, branchKey, kind]

theorem full_asRead (s : Schema) : s.asRead.full = s.full := by
  have hown : ∀ t : Schema, fullName t.asRead.ownName.1 t.asRead.ownName.2 =
      fullName t.ownName.1 t.ownName.2 := by
    intro t
    cases t with
    | compound shape parts n => cases shape <;> simp [asRead, ownName]
    | _ => simp [ownName, Head.asRead, Reference.asRead, fullName]
  cases s with
  | compound shape parts n =>
    cases shape with
    | logical k precision scale =>
      cases parts with
      | nil => simp [asRead, partsAsRead, full, core, ownName]
      | cons base rest => simpa [asRead, partsAsRead, full, core] using hown base
    | union o => simp [full, core, ownName]
    | array => simp [asRead, full, core, ownName]
    | map => simp [asRead, full, core, ownName]
  | _ => simp [full, core, ownName, Head.asRead, Reference.asRead, fullName]

end Schema

namespace Members

/-- None of the keys is there. -/
def Free (ms : Members) (keys : List Text) : Prop := ∀ key ∈ keys, key ∉ ms.keys

instance (ms : Members) (keys : List Text) : Decidable (ms.Free keys) :=
  inferInstanceAs (Decidable (∀ key ∈ keys, key ∉ ms.keys))

theorem Free.get? {ms : Members} {keys : List Text} (h : ms.Free keys) {key : Text}
    (hk : key ∈ keys) : ms.get? key = none :=
  get?_eq_none_iff.mpr (h key hk)

end Members

/-- The keys that a definition may leave out. -/
def definitionGaps : List Text := ["namespace", "doc", "aliases"]

def fieldGaps : List Text := ["doc", "default", "order", "aliases"]

def messageGaps : List Text := ["doc", "errors", "one-way"]

/-- No property of a type stands at a key that is read there although it may be left out. -/
def Schema.Clear : Schema → Prop
  | .record h _ fields =>
    h.properties.Free definitionGaps ∧ ∀ f ∈ fields, f.properties.Free fieldGaps
  | .enumeration h _ _ => h.properties.Free ("default" :: definitionGaps)
  | .fixed h _ => h.properties.Free definitionGaps
  | .compound (.logical _ _ _) (.fixed _ _ :: _) n => n.properties.Free definitionGaps
  | _ => True

instance : DecidablePred Schema.Clear
  | .record h _ fields =>
    inferInstanceAs (Decidable (h.properties.Free definitionGaps ∧
      ∀ f ∈ fields, f.properties.Free fieldGaps))
  | .enumeration h _ _ =>
    inferInstanceAs (Decidable (h.properties.Free ("default" :: definitionGaps)))
  | .fixed h _ => inferInstanceAs (Decidable (h.properties.Free definitionGaps))
  | .compound (.logical _ _ _) (.fixed _ _ :: _) n =>
    inferInstanceAs (Decidable (n.properties.Free definitionGaps))
  | .primitive _ _ | .reference _ | .compound .array _ _ | .compound .map _ _
  | .compound (.union _) _ _ | .compound (.logical _ _ _) [] _
  | .compound (.logical _ _ _) (.primitive _ _ :: _) _
  | .compound (.logical _ _ _) (.record _ _ _ :: _) _
  | .compound (.logical _ _ _) (.enumeration _ _ _ :: _) _
  | .compound (.logical _ _ _) (.compound _ _ _ :: _) _
  | .compound (.logical _ _ _) (.reference _ :: _) _ => .isTrue trivial

structure Message.Clear (m : Message) : Prop where
  properties : m.properties.Free messageGaps
  parameters : ∀ f ∈ m.request, f.properties.Free fieldGaps

instance : DecidablePred Message.Clear := fun m =>
  decidable_of_iff
    (m.properties.Free messageGaps ∧ ∀ f ∈ m.request, f.properties.Free fieldGaps)
    ⟨fun ⟨properties, parameters⟩ => ⟨properties, parameters⟩,
      fun h => ⟨h.properties, h.parameters⟩⟩

end AvroIdl
