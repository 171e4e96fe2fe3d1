import AvroIdl.Proofs.Occurrence
import AvroIdl.Proofs.Registration

/-!
# What binding does to references

Binding reaches the references that stand inside fewer than the given levels of schemas and leaves
all others as they are. So when no name is reported as undefined, a reference is bound to a type of
its name exactly if it does not lie too deep.
-/
namespace AvroIdl

namespace Schema

theorem fieldReferences_eq_flatMap (levels : Nat) (fields : List Field) :
    fieldReferences levels fields = fields.flatMap fun f => references levels f.type := by
  induction fields with
  | nil => simp [fieldReferences]
  | cons f fields ih => simp [fieldReferences, ih]

theorem partReferences_eq_flatMap (levels : Nat) (parts : List Schema) :
    partReferences levels parts = parts.flatMap (references levels) := by
  induction parts with
  | nil => simp [partReferences]
  | cons p parts ih => simp [partReferences, ih]

theorem bindFields_eq_map (place : Placement) (levels : Nat) (fields : List Field) :
    bindFields place levels fields =
      fields.map fun f => { f with type := bind place levels f.type } := by
  induction fields with
  | nil => simp [bindFields]
  | cons f fields ih => simp [bindFields, ih]

theorem bindParts_eq_map (place : Placement) (levels : Nat) (parts : List Schema) :
    bindParts place levels parts = parts.map (bind place levels) := by
  induction parts with
  | nil => simp [bindParts]
  | cons p parts ih => simp [bindParts, ih]

@[simp]
theorem bind_zero (place : Placement) (s : Schema) : bind place 0 s = s := by
  cases s <;> rfl

@[simp]
theorem bind_record (place : Placement) (levels : Nat) (h : Head) (e : Bool)
    (fields : List Field) :
    bind place (levels + 1) (.record h e fields) =
      .record h e (fields.map fun f => { f with type := bind place levels f.type }) := by
  rw [← bindFields_eq_map]
  rfl

@[simp]
theorem bind_compound (place : Placement) (levels : Nat) (shape : Shape) (parts : List Schema)
    (n : Note) :
    bind place (levels + 1) (.compound shape parts n) =
      .compound shape (parts.map (bind place levels)) n := by
  rw [← bindParts_eq_map]
  rfl

@[simp]
theorem bind_reference (place : Placement) (levels : Nat) (r : Reference) :
    bind place (levels + 1) (.reference r) = .reference (r.bind place) := rfl

@[simp]
theorem bind_primitive (place : Placement) (levels : Nat) (p : Primitive) (n : Note) :
    bind place levels (.primitive p n) = .primitive p n := by
  cases levels <;> rfl

@[simp]
theorem bind_enumeration (place : Placement) (levels : Nat) (h : Head) (symbols : List Text)
    (d : Option Text) :
    bind place levels (.enumeration h symbols d) = .enumeration h symbols d := by
  cases levels <;> rfl

@[simp]
theorem bind_fixed (place : Placement) (levels : Nat) (h : Head) (size : Nat) :
    bind place levels (.fixed h size) = .fixed h size := by
  cases levels <;> rfl

/-- The references that are looked at are those inside fewer schemas than there are levels. -/
theorem mem_references_iff {r : Reference} {levels : Nat} {s : Schema} :
    r ∈ references levels s ↔ ∃ depth < levels, (Schema.reference r).Occurs depth s := by
  induction s using Schema.induct generalizing levels with
  | primitive p n =>
    have hno : ¬∃ depth < levels, (Schema.reference r).Occurs depth (.primitive p n) := by
      rintro ⟨depth, -, ho⟩
      cases ho
    cases levels <;> simp only [references, List.not_mem_nil, hno]
  | enumeration h symbols d =>
    have hno : ¬∃ depth < levels, (Schema.reference r).Occurs depth (.enumeration h symbols d) := by
      rintro ⟨depth, -, ho⟩
      cases ho
    cases levels <;> simp only [references, List.not_mem_nil, hno]
  | fixed h size =>
    have hno : ¬∃ depth < levels, (Schema.reference r).Occurs depth (.fixed h size) := by
      rintro ⟨depth, -, ho⟩
      cases ho
    cases levels <;> simp only [references, List.not_mem_nil, hno]
  | reference r' =>
    cases levels with
    | zero => simp [references]
    | succ levels =>
      simp only [references, List.mem_singleton]
      constructor
      · rintro rfl
        exact ⟨0, by omega, .here⟩
      · rintro ⟨depth, -, ho⟩
        cases ho
        rfl
  | record h e fields ih =>
    cases levels with
    | zero => simp [references]
    | succ levels =>
      simp only [references, fieldReferences_eq_flatMap, List.mem_flatMap]
      constructor
      · rintro ⟨f, hf, hr⟩
        obtain ⟨depth, hd, ho⟩ := (ih f hf).mp hr
        exact ⟨depth + 1, by omega, .inField hf ho⟩
      · rintro ⟨depth, hd, ho⟩
        cases ho with
        | inField hf ho => exact ⟨_, hf, (ih _ hf).mpr ⟨_, by omega, ho⟩⟩
  | compound shape parts n ih =>
    cases levels with
    | zero => simp [references]
    | succ levels =>
      simp only [references, partReferences_eq_flatMap, List.mem_flatMap]
      constructor
      · rintro ⟨p, hp, hr⟩
        obtain ⟨depth, hd, ho⟩ := (ih p hp).mp hr
        exact ⟨depth + 1, by omega, .inPart hp ho⟩
      · rintro ⟨depth, hd, ho⟩
        cases ho with
        | inPart hp ho => exact ⟨_, hp, (ih _ hp).mpr ⟨_, by omega, ho⟩⟩

/-- What occurs in a bound schema is bound with the levels that are left at its depth. -/
theorem Occurs.of_bind {place : Placement} {levels depth : Nat} {t s : Schema}
    (h : t.Occurs depth (bind place levels s)) :
    ∃ t', t'.Occurs depth s ∧ t = bind place (levels - depth) t' := by
  induction depth generalizing levels s with
  | zero =>
    rw [occurs_zero_iff] at h
    exact ⟨s, .here, by simpa using h⟩
  | succ depth ih =>
    cases levels with
    | zero =>
      rw [bind_zero] at h
      exact ⟨t, h, by simp⟩
    | succ levels =>
      rw [Nat.add_sub_add_right]
      cases s with
      | primitive p n => simp only [bind_primitive] at h; cases h
      | enumeration head symbols d => simp only [bind_enumeration] at h; cases h
      | fixed head size => simp only [bind_fixed] at h; cases h
      | reference r => simp only [bind_reference] at h; cases h
      | record head e fields =>
        rw [bind_record, occurs_succ_record_iff] at h
        obtain ⟨f', hf', ho⟩ := h
        obtain ⟨f, hf, rfl⟩ := List.mem_map.mp hf'
        obtain ⟨t', ht', he⟩ := ih ho
        exact ⟨t', .inField hf ht', he⟩
      | compound shape parts n =>
        rw [bind_compound, occurs_succ_compound_iff] at h
        obtain ⟨p', hp', ho⟩ := h
        obtain ⟨p, hp, rfl⟩ := List.mem_map.mp hp'
        obtain ⟨t', ht', he⟩ := ih ho
        exact ⟨t', .inPart hp ht', he⟩

end Schema

namespace Reference

@[simp]
theorem full_bind (place : Placement) (r : Reference) : (r.bind place).full = r.full := by
  unfold Reference.bind
  split <;> rfl

@[simp]
theorem name_bind (place : Placement) (r : Reference) : (r.bind place).name = r.name := by
  unfold Reference.bind
  split <;> rfl

@[simp]
theorem space_bind (place : Placement) (r : Reference) : (r.bind place).space = r.space := by
  unfold Reference.bind
  split <;> rfl

@[simp]
theorem toNote_bind (place : Placement) (r : Reference) : (r.bind place).toNote = r.toNote := by
  unfold Reference.bind
  split <;> rfl

theorem binding_bind {place : Placement} {r : Reference} {i : Nat} (h : place r.full = some i) :
    (r.bind place).binding = some i := by
  simp [Reference.bind, h]

end Reference

namespace Schema

@[simp]
theorem ownName_bind (place : Placement) (levels : Nat) (s : Schema) :
    (bind place levels s).ownName = s.ownName := by
  cases levels with
  | zero => simp
  | succ levels => cases s <;> simp [ownName]

@[simp]
theorem kind_bind (place : Placement) (levels : Nat) (s : Schema) :
    (bind place levels s).kind = s.kind := by
  cases levels with
  | zero => simp
  | succ levels =>
    cases s with
    | compound shape parts n => cases shape <;> simp [kind]
    | _ => simp [kind]

@[simp]
theorem note_bind (place : Placement) (levels : Nat) (s : Schema) :
    (bind place levels s).note = s.note := by
  cases levels with
  | zero => simp
  | succ levels => cases s <;> simp [note]

@[simp]
theorem isUnion_bind (place : Placement) (levels : Nat) (s : Schema) :
    (bind place levels s).isUnion = s.isUnion := by
  simp [isUnion]

@[simp]
theorem isNamed_bind (place : Placement) (levels : Nat) (s : Schema) :
    (bind place levels s).isNamed = s.isNamed := by
  cases levels with
  | zero => simp
  | succ levels =>
    cases s with
    | compound shape parts n =>
      rw [bind_compound]
      cases shape with
      | logical k precision scale =>
        cases parts with
        | nil => rfl
        | cons base rest =>
          have hk := kind_bind place levels base
          cases base <;> cases levels <;> simp_all [isNamed]
      | _ => rfl
    | _ => simp [isNamed]

theorem core_bind (place : Placement) (levels : Nat) (s : Schema) :
    ∃ left, (bind place levels s).core = bind place left s.core := by
  cases levels with
  | zero => exact ⟨0, by simp⟩
  | succ levels =>
    cases s with
    | compound shape parts n =>
      cases shape with
      | logical k precision scale =>
        cases parts with
        | nil => exact ⟨levels + 1, by simp [core]⟩
        | cons base rest => exact ⟨levels, by simp [core]⟩
      | _ => exact ⟨levels + 1, by simp [core]⟩
    | _ => exact ⟨levels + 1, by simp [core]⟩

@[simp]
theorem ownName_core_bind (place : Placement) (levels : Nat) (s : Schema) :
    (bind place levels s).core.ownName = s.core.ownName := by
  obtain ⟨left, hc⟩ := core_bind place levels s
  rw [hc, ownName_bind]

@[simp]
theorem full_bind (place : Placement) (levels : Nat) (s : Schema) :
    (bind place levels s).full = s.full := by
  simp [full]

@[simp]
theorem full_bindAll (place : Placement) (s : Schema) : (s.bindAll place).full = s.full :=
  full_bind place bindingLevels s

end Schema

namespace Message

/-- The types of the parameters, the response and the errors, in this order. -/
def types (m : Message) : List Schema :=
  m.request.map (·.type) ++ m.response :: m.errors.getD []

theorem allReferences_eq (m : Message) :
    m.allReferences = m.types.flatMap Schema.allReferences := by
  simp [allReferences, types, List.flatMap_map]

theorem mem_allReferences_iff {m : Message} {r : Reference} :
    r ∈ m.allReferences ↔ ∃ s ∈ m.types, r ∈ s.allReferences := by
  rw [allReferences_eq, List.mem_flatMap]

theorem types_bindAll (place : Placement) (m : Message) :
    (m.bindAll place).types = m.types.map (Schema.bindAll place) := by
  cases he : m.errors <;> simp [types, bindAll, he]

end Message

namespace Registry

/-- The registered types, the types of messages and the main schema. -/
def unitTypes (r : Registry) (messages : List Message) (main : Option Schema) : List Schema :=
  r.entries.map (·.schema) ++ messages.flatMap Message.types ++ main.toList

/-- The reference is bound to a place where a type of its full name is registered. -/
def Binds (r : Registry) (ref : Reference) : Prop :=
  ∃ i e, ref.binding = some i ∧ r.entries[i]? = some e ∧ e.schema.full = ref.full

theorem binds_iff {r : Registry} {ref : Reference} :
    r.Binds ref ↔
      ∃ e ∈ ref.binding.bind fun i => r.entries[i]?, e.schema.full = ref.full := by
  simp only [Binds, Option.mem_def, Option.bind_eq_some_iff]
  constructor
  · rintro ⟨i, e, hi, he, hfull⟩
    exact ⟨e, ⟨i, hi, he⟩, hfull⟩
  · rintro ⟨e, ⟨i, hi, he⟩, hfull⟩
    exact ⟨i, e, hi, he, hfull⟩

instance (r : Registry) (ref : Reference) : Decidable (r.Binds ref) :=
  decidable_of_iff _ binds_iff.symm

/-- Every reference in the registered types and the messages is bound to a type of its name. -/
def Bound (r : Registry) (messages : List Message) : Prop :=
  ∀ s ∈ r.unitTypes messages none, ∀ depth ref,
    (Schema.reference ref).Occurs depth s → r.Binds ref

def BindsAt (r : Registry) : Schema → Prop
  | .reference ref => r.Binds ref
  | _ => True

instance (r : Registry) : DecidablePred r.BindsAt
  | .reference ref => inferInstanceAs (Decidable (r.Binds ref))
  | .primitive _ _ | .record _ _ _ | .enumeration _ _ _ | .fixed _ _ | .compound _ _ _ =>
    .isTrue trivial

theorem bound_iff {r : Registry} {messages : List Message} :
    r.Bound messages ↔ ∀ s ∈ r.unitTypes messages none, s.Everywhere r.BindsAt := by
  refine forall₂_congr fun s _ => ⟨fun h depth t ho => ?_, fun h depth ref ho => h depth _ ho⟩
  cases t with
  | reference ref => exact h depth ref ho
  | _ => trivial

instance (r : Registry) (messages : List Message) : Decidable (r.Bound messages) :=
  decidable_of_iff _ bound_iff.symm

theorem unresolvedBundle_eq_none_iff {r : Registry} {refs : List (Text × Reference)} :
    r.unresolvedBundle refs = none ↔ refs = [] := by
  cases refs <;> simp [unresolvedBundle]

theorem mem_locatedReferences {r : Registry} {messages : List Message} {main : Option Schema}
    {s : Schema} {ref : Reference} (hs : s ∈ r.unitTypes messages main)
    (hr : ref ∈ s.allReferences) : ∃ file, (file, ref) ∈ r.locatedReferences messages main := by
  simp only [unitTypes, List.mem_append, List.mem_map, List.mem_flatMap] at hs
  rcases hs with (⟨e, he, rfl⟩ | ⟨m, hm, hs⟩) | hs
  · refine ⟨e.origin, List.mem_append_left _ ?_⟩
    exact List.mem_flatMap.mpr ⟨e, he, List.mem_map.mpr ⟨ref, hr, rfl⟩⟩
  · refine ⟨r.file, List.mem_append_right _ (List.mem_map.mpr ⟨ref, ?_, rfl⟩)⟩
    apply List.mem_append_left
    exact List.mem_flatMap.mpr ⟨m, hm, Message.mem_allReferences_iff.mpr ⟨s, hs, hr⟩⟩
  · refine ⟨r.file, List.mem_append_right _ (List.mem_map.mpr ⟨ref, ?_, rfl⟩)⟩
    apply List.mem_append_right
    exact List.mem_flatMap.mpr ⟨s, hs, hr⟩

section Resolution

variable {r : Registry} {messages : List Message} {main : Option Schema}

theorem mem_names_of_resolved (h : (r.resolveAll messages main).failure = none) {s : Schema}
    {ref : Reference} (hs : s ∈ r.unitTypes messages main) (hr : ref ∈ s.allReferences) :
    ref.full ∈ r.names := by
  have hnil := unresolvedBundle_eq_none_iff.mp h
  obtain ⟨file, hmem⟩ := mem_locatedReferences hs hr
  have hkeep := List.filter_eq_nil_iff.mp hnil (file, ref) hmem
  simpa [contains] using hkeep

theorem unitTypes_resolveAll :
    (r.resolveAll messages main).registry.unitTypes (r.resolveAll messages main).messages
        (r.resolveAll messages main).main =
      (r.unitTypes messages main).map (Schema.bindAll r.indexOf?) := by
  have hm : (messages.map (Message.bindAll r.indexOf?)).flatMap Message.types =
      (messages.flatMap Message.types).map (Schema.bindAll r.indexOf?) := by
    simp [List.flatMap_map, List.map_flatMap, Message.types_bindAll]
  cases main <;> simp [unitTypes, resolveAll, hm]

@[simp]
theorem names_resolveAll : (r.resolveAll messages main).registry.names = r.names := by
  simp [names, resolveAll]

theorem Lawful.resolveAll (hr : r.Lawful) (messages : List Message) (main : Option Schema) :
    (r.resolveAll messages main).registry.Lawful := by
  have hentry : ∀ e ∈ (r.resolveAll messages main).registry.entries, ∃ e₀ ∈ r.entries,
      e.schema = e₀.schema.bindAll r.indexOf? := by
    intro e he
    obtain ⟨e₀, he₀, rfl⟩ := List.mem_map.mp he
    exact ⟨e₀, he₀, rfl⟩
  refine ⟨?_, ?_, ?_⟩
  · intro e he
    obtain ⟨e₀, he₀, heq⟩ := hentry e he
    rw [heq, Schema.bindAll, Schema.isNamed_bind]
    exact hr.named e₀ he₀
  · intro e he
    obtain ⟨e₀, he₀, heq⟩ := hentry e he
    rw [heq, Schema.bindAll, Schema.ownName_core_bind]
    exact hr.legal e₀ he₀
  · rw [names_resolveAll]
    exact hr.distinct

/-- A reference that has a place and stays within the levels is bound to a type of its name. -/
theorem binds_bind {ref : Reference} (h : ref.full ∈ r.names) :
    (r.resolveAll messages main).registry.Binds (ref.bind r.indexOf?) := by
  obtain ⟨i, hi⟩ := exists_indexOf?_of_mem h
  obtain ⟨e, he, hfull⟩ := exists_entry_of_indexOf? hi
  refine ⟨i, { e with schema := e.schema.bindAll r.indexOf? }, Reference.binding_bind hi, ?_, ?_⟩
  · simp [resolveAll, he]
  · simpa using hfull

/-- If no reference was bound before and no name is undefined, exactly those references are bound
to a type of their name that stand inside fewer schemas than there are levels. -/
theorem binds_resolveAll_iff (h : (r.resolveAll messages main).failure = none)
    (hfree : ∀ s ∈ r.unitTypes messages main, ∀ depth ref,
      (Schema.reference ref).Occurs depth s → ref.binding = none)
    {s : Schema} {depth : Nat} {ref : Reference}
    (hs : s ∈ (r.resolveAll messages main).registry.unitTypes
      (r.resolveAll messages main).messages (r.resolveAll messages main).main)
    (ho : (Schema.reference ref).Occurs depth s) :
    (r.resolveAll messages main).registry.Binds ref ↔ depth < Schema.bindingLevels := by
  rw [unitTypes_resolveAll] at hs
  obtain ⟨s₀, hs₀, rfl⟩ := List.mem_map.mp hs
  obtain ⟨t, ht, he⟩ := ho.of_bind
  by_cases hd : depth < Schema.bindingLevels
  · simp only [hd, iff_true]
    obtain ⟨left, hleft⟩ : ∃ left, Schema.bindingLevels - depth = left + 1 :=
      ⟨Schema.bindingLevels - depth - 1, by omega⟩
    rw [hleft] at he
    cases t with
    | reference r₀ =>
      simp only [Schema.bind_reference, Schema.reference.injEq] at he
      subst he
      exact binds_bind
        (mem_names_of_resolved h hs₀ (Schema.mem_references_iff.mpr ⟨depth, hd, ht⟩))
    | _ => simp at he
  · simp only [hd, iff_false]
    rw [Nat.sub_eq_zero_of_le (by omega), Schema.bind_zero] at he
    subst he
    rintro ⟨i, e, hb, -⟩
    rw [hfree s₀ hs₀ depth ref ht] at hb
    cases hb

end Resolution

end Registry

end AvroIdl
