import AvroIdl.Proofs.NodeReading
import Mathlib.Data.List.Nodup

/-!
# Types are read back

The writer follows references into the registry, and defines every type where it first meets it.
Whatever it writes is read as the schema that it was written from, together with the types that it
has defined on the way, in the order in which it has met them. A reference that is not followed is
read all the same, so the number of steps that the writer is given does not matter for that.
-/
namespace AvroIdl

namespace Registry

/-- The reference is bound to a type of its name, or not bound at all. -/
def Anchored (r : Registry) (ref : Reference) : Prop := ref.binding = none ∨ r.Binds ref

theorem Lawful.find?_of_mem {r : Registry} (hr : r.Lawful) {e : Entry} (he : e ∈ r.entries) :
    r.find? e.schema.full = some e.schema := by
  obtain ⟨i, hi⟩ := exists_indexOf?_of_mem (List.mem_map_of_mem he : e.schema.full ∈ r.names)
  obtain ⟨e', he', hfull⟩ := exists_entry_of_indexOf? hi
  have hsame : e' = e :=
    List.inj_on_of_nodup_map hr.distinct (List.mem_of_getElem? he') he hfull
  have hentry : r.entry? e.schema.full = some e := by
    rw [ entry?, hi, ← hsame]
    exact he'
  rw [find?, hentry]
  rfl

theorem exists_entry_of_find? {r : Registry} {full : Text} {s : Schema}
    (h : r.find? full = some s) : ∃ e ∈ r.entries, e.schema = s ∧ s.full = full := by
  obtain ⟨e, he, rfl⟩ := Option.map_eq_some_iff.mp h
  obtain ⟨i, hi, hentry⟩ := Option.bind_eq_some_iff.mp he
  obtain ⟨e', he', hfull⟩ := exists_entry_of_indexOf? hi
  cases he'.symm.trans hentry
  exact ⟨e, List.mem_of_getElem? hentry, rfl, hfull⟩

theorem exists_entry_of_lookup {r : Registry} {ref : Reference} (ha : r.Anchored ref) {s : Schema}
    (h : r.lookup ref = some s) : ∃ e ∈ r.entries, e.schema = s ∧ s.full = ref.full := by
  unfold lookup at h
  rcases ha with hnone | ⟨i, e, hb, he, hfull⟩
  · simp only [hnone, Option.bind_none] at h
    exact exists_entry_of_find? h
  · simp only [hb, Option.bind_some, he, Option.some.injEq] at h
    subst h
    exact ⟨e, List.mem_of_getElem? he, rfl, hfull⟩

end Registry

namespace Document

/-- The registered types of the names, as they are read. -/
def typesOf (r : Registry) (names : List Text) : List Schema :=
  names.filterMap fun name => (r.find? name).map Schema.asRead

/-- The writer has come from the first names to the others by defining the types. -/
def Grows (r : Registry) (w w' : List Text) (types : List Schema) : Prop :=
  ∃ new : List Text, w' = new.reverse ++ w ∧ new.Nodup ∧ (∀ name ∈ new, name ∉ w ∧ name ∈ r.names) ∧
    types = typesOf r new

section Grows

variable {r : Registry} {w w' w'' : List Text} {types types' : List Schema}

theorem grows_refl (r : Registry) (w : List Text) : Grows r w w [] := ⟨[], by simp [typesOf]⟩

theorem Grows.trans (h : Grows r w w' types) (h' : Grows r w' w'' types') :
    Grows r w w'' (types ++ types') := by
  obtain ⟨new, rfl, hnodup, hnew, rfl⟩ := h
  obtain ⟨new', rfl, hnodup', hnew', rfl⟩ := h'
  refine ⟨new ++ new', by simp, ?_, ?_, by simp [typesOf]⟩
  · rw [List.nodup_append]
    refine ⟨hnodup, hnodup', ?_⟩
    rintro a ha b hb rfl
    exact (hnew' a hb).1 (List.mem_append_left _ (List.mem_reverse.mpr ha))
  · intro name hname
    rcases List.mem_append.mp hname with hname | hname
    · exact hnew name hname
    · exact ⟨fun hin => (hnew' name hname).1 (List.mem_append_right _ hin), (hnew' name hname).2⟩

theorem Grows.define {name : Text} {s : Schema} (h : Grows r (name :: w) w' types)
    (hnew : name ∉ w) (hs : r.find? name = some s) (hname : name ∈ r.names) :
    Grows r w w' (s.asRead :: types) := by
  have hfirst : Grows r w (name :: w) [s.asRead] := by
    refine ⟨[name], by simp, by simp, ?_, by simp [typesOf, hs]⟩
    intro n hn
    rw [List.mem_singleton.mp hn]
    exact ⟨hnew, hname⟩
  exact hfirst.trans h

theorem Grows.subset (h : Grows r w w' types) : w ⊆ w' := by
  obtain ⟨new, rfl, -⟩ := h
  exact List.subset_append_right _ _

end Grows

/-- What has to hold of a type, node by node, to be read back. Either no type of the unit has a
namespace, or all have one. -/
structure Writable (r : Registry) (bare : Bool) (t : Schema) : Prop where
  proper : t.Proper
  clear : t.Clear
  head : ∀ h, t.head? = some h →
    Byte.dot ∉ h.name ∧ (normalizeNamespace h.space).isNone = bare
  reference : ∀ ref, t = .reference ref →
    r.Anchored ref ∧ (normalizeNamespace ref.space).isNone = bare ∧
      Primitive.ofText? ref.name = none

/-- The namespace in force where types without a namespace may stand. -/
def InForce (bare : Bool) (enclosing : Option Text) : Prop :=
  bare = true → normalizeNamespace enclosing = none

theorem tellable_of_inForce {bare : Bool} {space enclosing : Option Text}
    (hs : (normalizeNamespace space).isNone = bare) (he : InForce bare enclosing) :
    Tellable space enclosing := by
  intro hnone
  rw [hnone] at hs
  exact he hs.symm

/-- Writing defines types on the way, and what is written is read as the given schema. -/
def Writes (r : Registry) (write : Writer Json) (enclosing : Option Text) (w : List Text)
    (place : Schema) : Prop :=
  ∃ types, Grows r w (write.run w).2 types ∧
    SettlesAt (normalizeNamespace enclosing) (write.run w).1 ⟨place, types⟩

/-- References are read back, whatever has been written before. -/
def Follows (r : Registry) (bare : Bool) (follow : Reference → Option Text → Writer Json) : Prop :=
  ∀ ref enclosing w, Writable r bare (.reference ref) → InForce bare enclosing →
    Writes r (follow ref enclosing) enclosing w (.reference ref.asRead)

section Lists

variable {α γ : Type} {r : Registry}

theorem mapM_grows {write : α → Writer Json} {reads : Json → γ → Prop} {view : α → γ → Prop}
    {inner : γ → List Schema} {xs : List α}
    (h : ∀ x ∈ xs, ∀ w, ∃ c,
      Grows r w ((write x).run w).2 (inner c) ∧ reads ((write x).run w).1 c ∧ view x c)
    (w : List Text) :
    ∃ cs, Grows r w ((xs.mapM write).run w).2 (cs.flatMap inner) ∧
      List.Forall₂ reads ((xs.mapM write).run w).1 cs ∧ List.Forall₂ view xs cs := by
  induction xs generalizing w with
  | nil => exact ⟨[], grows_refl r w, .nil, .nil⟩
  | cons x xs ih =>
    obtain ⟨hx, hxs⟩ := List.forall_mem_cons.mp h
    obtain ⟨c, hgrows, hread, hview⟩ := hx w
    obtain ⟨cs, hgrows', hreads, hviews⟩ := ih hxs ((write x).run w).2
    rw [List.mapM_cons]
    exact ⟨c :: cs, hgrows.trans hgrows', .cons hread hreads, .cons hview hviews⟩

end Lists

theorem writeParts_eq_mapM (follow : Reference → Option Text → Writer Json)
    (enclosing : Option Text) (parts : List Schema) :
    writeParts follow enclosing parts = parts.mapM (writeWith follow enclosing) := by
  induction parts with
  | nil => simp [writeParts]
  | cons s parts ih => simp [writeParts, ih]

/-- A field or parameter whose type is written by the given writer. -/
def writeField (write : Schema → Writer Json) (f : Field) : Writer Json := do
  let type ← write f.type
  return .object (fieldMembers f type)

theorem writeFields_eq_mapM (follow : Reference → Option Text → Writer Json)
    (enclosing : Option Text) (fields : List Field) :
    writeFields follow enclosing fields =
      fields.mapM (writeField (writeWith follow enclosing)) := by
  induction fields with
  | nil => simp [writeFields]
  | cons f fields ih => simp [writeFields, writeField, ih]

section Inner

variable {r : Registry} {bare : Bool} {follow : Reference → Option Text → Writer Json}

theorem map_eq_of_forall₂ {parts : List Schema} {cs : List Converted}
    (h : List.Forall₂ (fun s c => c.schema = s.asRead) parts cs) :
    cs.map (·.schema) = parts.map Schema.asRead := by
  induction h with
  | nil => rfl
  | cons h _ ih => rw [List.map_cons, List.map_cons, h, ih]

theorem exists_primitive_of_inner {k : LogicalKind} {precision scale : Nat} {parts : List Schema}
    {n : Note} (hp : (Schema.compound (.logical k precision scale) parts n).Proper)
    (hi : (Schema.compound (.logical k precision scale) parts n).Inner) :
    ∃ p m, parts = [.primitive p m] := by
  obtain ⟨-, base, rfl, -, ha, -⟩ := hp
  cases base with
  | primitive p m => exact ⟨p, m, rfl⟩
  | fixed h size => cases hi
  | compound shape parts m =>
    cases shape <;> cases k <;> simp [LogicalKind.accepts, Schema.kind] at ha
  | _ => cases k <;> simp [LogicalKind.accepts, Schema.kind] at ha

theorem writes_container {write : Writer Json} {shape : Shape} {word key : Text} {part : Schema}
    {n : Note} {enclosing : Option Text} {w : List Text}
    (hshape : containerOf? word = some (shape, key)) (hd : n.properties.Distinct)
    (hpart : Writes r write enclosing w part.asRead) :
    Writes r (do
      let inner ← write
      return .object ((member "type" (.string word) ++ member key inner).merge n.properties))
      enclosing w (Schema.compound shape [part] n).asRead := by
  obtain ⟨types, hgrows, hread⟩ := hpart
  exact ⟨types, hgrows, settlesAt_container hshape hd hread⟩

theorem writes_union {isOptional : Bool} {parts : List Schema} {n : Note} {enclosing : Option Text}
    (hp : (Schema.compound (.union isOptional) parts n).Proper)
    (hparts : ∀ s ∈ parts, ∀ w, Writes r (writeWith follow enclosing s) enclosing w s.asRead)
    (w : List Text) :
    Writes r (do return .array (← writeParts follow enclosing parts)) enclosing w
      (Schema.compound (.union isOptional) parts n).asRead := by
  have hbranch : ∀ s ∈ parts, ∀ w, ∃ c : Converted,
      Grows r w ((writeWith follow enclosing s).run w).2 c.types ∧
        SettlesAt (normalizeNamespace enclosing) ((writeWith follow enclosing s).run w).1 c ∧
        c.schema = s.asRead := by
    intro s hs w
    obtain ⟨types, hgrows, hread⟩ := hparts s hs w
    exact ⟨⟨s.asRead, types⟩, hgrows, hread, rfl⟩
  obtain ⟨cs, hgrows, hreads, hviews⟩ := mapM_grows hbranch w
  rw [writeParts_eq_mapM]
  refine ⟨cs.flatMap Converted.types, hgrows, ?_⟩
  exact settlesAt_union hp hreads (map_eq_of_forall₂ hviews)

/-- What is written for a part of a type is read as that part. -/
theorem writes_inner (hfollow : Follows r bare follow) {s : Schema}
    (hs : s.Everywhere (Writable r bare)) (hi : s.Inner) {enclosing : Option Text}
    (he : InForce bare enclosing) (w : List Text) :
    Writes r (writeWith follow enclosing s) enclosing w s.asRead := by
  induction s using Schema.induct generalizing w with
  | primitive p n =>
    refine ⟨[], ?_, ?_⟩
    · rw [writeWith]
      split <;> exact grows_refl r w
    · have hread := settlesAt_primitive (normalizeNamespace enclosing) hs.self.proper
      rw [writeWith]
      split at hread
      · next hempty =>
        rw [if_pos hempty]
        exact hread
      · next hfilled =>
        rw [if_neg hfilled]
        exact hread
  | record h e fields => cases hi
  | enumeration h symbols d => cases hi
  | fixed h size => cases hi
  | reference ref =>
    rw [writeWith, Schema.asRead_reference]
    exact hfollow ref enclosing w hs.self he
  | compound shape parts n ih =>
    obtain ⟨hself, hparts⟩ := Schema.everywhere_compound_iff.mp hs
    cases shape with
    | array =>
      obtain ⟨hd, part, rfl, hinner⟩ := hself.proper
      have hpart : part ∈ [part] := List.mem_singleton_self part
      rw [writeWith]
      exact writes_container rfl hd (ih part hpart (hparts part hpart) hinner w)
    | map =>
      obtain ⟨hd, part, rfl, hinner⟩ := hself.proper
      have hpart : part ∈ [part] := List.mem_singleton_self part
      rw [writeWith]
      exact writes_container rfl hd (ih part hpart (hparts part hpart) hinner w)
    | logical k precision scale =>
      obtain ⟨p, m, rfl⟩ := exists_primitive_of_inner hself.proper hi
      refine ⟨[], ?_, ?_⟩
      · rw [writeWith]
        · exact grows_refl r w
        · simp
      · rw [writeWith]
        · exact settlesAt_logicalPrimitive _ hself.proper
        · simp
    | union o =>
      rw [writeWith]
      exact writes_union hself.proper
        (fun s hs w => ih s hs (hparts s hs) (hself.proper.2.1 s hs).2 w) w

theorem writeField_grows {write : Schema → Writer Json} {enclosing : Option Text} {f : Field}
    (hd : f.properties.Distinct) (hf : f.properties.Free fieldGaps) {w : List Text}
    (htype : Writes r (write f.type) enclosing w f.type.asRead) :
    ∃ p : Field × List Schema, Grows r w ((writeField write f).run w).2 p.2 ∧
      SettlesField (normalizeNamespace enclosing) ((writeField write f).run w).1 p ∧
      p.1 = f.asRead := by
  obtain ⟨types, hgrows, hread⟩ := htype
  exact ⟨(f.asRead, types), hgrows, settlesField hd hf hread, rfl⟩

theorem map_fst_eq_of_forall₂ {fields : List Field} {ps : List (Field × List Schema)}
    (h : List.Forall₂ (fun f p => p.1 = f.asRead) fields ps) :
    ps.map (·.1) = fields.map FieldOf.asRead := by
  induction h with
  | nil => rfl
  | cons h _ ih => rw [List.map_cons, List.map_cons, h, ih]

theorem nodup_names_of_forall₂ {fields : List Field} {ps : List (Field × List Schema)}
    (h : List.Forall₂ (fun f p => p.1 = f.asRead) fields ps)
    (hnodup : (fields.map (·.name)).Nodup) : (ps.map (·.1.name)).Nodup := by
  have hmap := congrArg (List.map FieldOf.name) (map_fst_eq_of_forall₂ h)
  rw [List.map_map, List.map_map] at hmap
  have hnames : ps.map (·.1.name) = fields.map (·.name) := hmap
  rw [hnames]
  exact hnodup

theorem once_run {h : Head} {w : List Text} (hnew : h.full ∉ w) (enclosing : Option Text)
    (definition : Writer Members) :
    (once h enclosing definition).run w =
      (.object (definition.run (h.full :: w)).1, (definition.run (h.full :: w)).2) := by
  have hcontains : w.contains h.full = false := by simpa using hnew
  change (if w.contains h.full = true then
    (pure (Json.string (relativeName h.name h.space enclosing)) : Writer Json) else (do
      modify (h.full :: ·)
      return .object (← definition))).run w = _
  rw [hcontains]
  rfl

theorem exists_fixed_of_isNamed {shape : Shape} {parts : List Schema} {n : Note}
    (h : (Schema.compound shape parts n).isNamed = true) :
    ∃ k precision scale head size rest, shape = .logical k precision scale ∧
      parts = .fixed head size :: rest := by
  cases shape with
  | logical k precision scale =>
    cases parts with
    | nil => cases h
    | cons base rest =>
      cases base with
      | fixed head size => exact ⟨k, precision, scale, head, size, rest, rfl, rfl⟩
      | _ => cases h
  | _ => cases h

/-- The reference that the definition of a named type leaves at its place. -/
def placed (s : Schema) : Schema :=
  .reference { name := s.core.ownName.1, space := normalizeNamespace s.core.ownName.2 }

/-- What is written for the definition of a type is read as a reference to it, and the type with
what is inside it. -/
def Defines (r : Registry) (write : Writer Json) (enclosing : Option Text) (w : List Text)
    (s : Schema) : Prop :=
  ∃ types, Grows r (s.full :: w) (write.run w).2 types ∧
    SettlesAt (normalizeNamespace enclosing) (write.run w).1 ⟨placed s, s.asRead :: types⟩

/-- A definition that has no other inside it. -/
theorem defines_of_plain {s : Schema} {h : Head} {enclosing : Option Text} {w : List Text}
    (hfull : h.full = s.full) (hnew : s.full ∉ w) {ms : Members}
    (hread : SettlesAt (normalizeNamespace enclosing) (.object ms) ⟨placed s, [s.asRead]⟩) :
    Defines r (once h enclosing (return ms)) enclosing w s := by
  refine ⟨[], ?_, ?_⟩
  · rw [once_run (hfull ▸ hnew), hfull]
    exact grows_refl r _
  · rw [once_run (hfull ▸ hnew)]
    exact hread

theorem defines_record (hfollow : Follows r bare follow) {h : Head} {isError : Bool}
    {fields : List Field} (hs : (Schema.record h isError fields).Everywhere (Writable r bare))
    {enclosing : Option Text} (he : InForce bare enclosing) {w : List Text} (hnew : h.full ∉ w) :
    Defines r (writeWith follow enclosing (.record h isError fields)) enclosing w
      (.record h isError fields) := by
  obtain ⟨hself, hinside⟩ := Schema.everywhere_record_iff.mp hs
  obtain ⟨hdot, hspace⟩ := hself.head h rfl
  obtain ⟨hd, hnodup, hfields⟩ := hself.proper
  have htell := tellable_of_inForce hspace he
  have hinner : InForce bare (fieldNamespace h enclosing) := by
    intro hbare
    rw [normalizeNamespace_fieldNamespace htell]
    rw [hbare] at hspace
    exact Option.isNone_iff_eq_none.mp hspace
  have hfield : ∀ f ∈ fields, ∀ w, ∃ p : Field × List Schema,
      Grows r w ((writeField (writeWith follow (fieldNamespace h enclosing)) f).run w).2 p.2 ∧
        SettlesField (normalizeNamespace (fieldNamespace h enclosing))
          ((writeField (writeWith follow (fieldNamespace h enclosing)) f).run w).1 p ∧
        p.1 = f.asRead := fun f hf w =>
    writeField_grows (hfields f hf).1 (hself.clear.2 f hf)
      (writes_inner hfollow (hinside f hf) (hfields f hf).2 hinner w)
  obtain ⟨ps, hgrows, hreads, hviews⟩ := mapM_grows hfield (h.full :: w)
  have hnames := nodup_names_of_forall₂ hviews hnodup
  rw [normalizeNamespace_fieldNamespace htell] at hreads
  refine ⟨ps.flatMap (·.2), ?_, ?_⟩
  · rw [writeWith, once_run hnew, writeFields_eq_mapM]
    exact hgrows
  · rw [writeWith, once_run hnew, writeFields_eq_mapM, Schema.asRead_record,
      ← map_fst_eq_of_forall₂ hviews]
    exact settlesAt_record hd hself.clear.1 hdot htell hreads hnames

theorem defines_named (hfollow : Follows r bare follow) {s : Schema}
    (hs : s.Everywhere (Writable r bare)) (hnamed : s.isNamed = true) {enclosing : Option Text}
    (he : InForce bare enclosing) {w : List Text} (hnew : s.full ∉ w) :
    Defines r (writeWith follow enclosing s) enclosing w s := by
  cases s with
  | primitive p n => cases hnamed
  | reference ref => cases hnamed
  | record h isError fields => exact defines_record hfollow hs he hnew
  | enumeration h symbols d =>
    obtain ⟨hdot, hspace⟩ := hs.self.head h rfl
    rw [writeWith]
    exact defines_of_plain rfl hnew (settlesAt_enumeration hs.self.proper hs.self.clear hdot
      (tellable_of_inForce hspace he))
  | fixed h size =>
    obtain ⟨hdot, hspace⟩ := hs.self.head h rfl
    rw [writeWith]
    exact defines_of_plain rfl hnew (settlesAt_plainFixed hs.self.proper hs.self.clear hdot
      (tellable_of_inForce hspace he))
  | compound shape parts n =>
    obtain ⟨hself, hinside⟩ := Schema.everywhere_compound_iff.mp hs
    obtain ⟨k, precision, scale, h, size, rest, rfl, rfl⟩ := exists_fixed_of_isNamed hnamed
    have hrest : rest = [] := by
      obtain ⟨-, base, hbase, -⟩ := hself.proper
      exact (List.cons.inj hbase).2
    subst hrest
    have hbase := (hinside (.fixed h size) List.mem_cons_self).self
    obtain ⟨hdot, hspace⟩ := hbase.head h rfl
    rw [writeWith]
    exact defines_of_plain rfl hnew (settlesAt_logicalFixed hself.proper hbase.proper.2.1
      hself.clear hdot (tellable_of_inForce hspace he))

theorem writes_name {ref : Reference} (href : Writable r bare (.reference ref))
    {enclosing : Option Text} (he : InForce bare enclosing) (w : List Text) :
    Writes r (pure (.string (relativeName ref.name ref.space enclosing))) enclosing w
      (.reference ref.asRead) := by
  obtain ⟨-, hspace, hprimitive⟩ := href.reference ref rfl
  refine ⟨[], grows_refl r w, ?_⟩
  have hread : SettlesAt (normalizeNamespace enclosing)
      (.string (relativeName ref.name ref.space enclosing)) _ := settlesAt_string
  rw [readName_relativeName href.proper hprimitive (tellable_of_inForce hspace he)] at hread
  exact hread

theorem placed_eq_of_full {s : Schema} {ref : Reference} (hs : s.Everywhere (Writable r bare))
    (hnamed : s.isNamed = true) (hdot : Byte.dot ∉ ref.name) (hfull : s.full = ref.full) :
    placed s = .reference ref.asRead := by
  have hname : Byte.dot ∉ s.core.ownName.1 := by
    cases s with
    | record h e fields => exact (hs.self.head h rfl).1
    | enumeration h symbols d => exact (hs.self.head h rfl).1
    | fixed h size => exact (hs.self.head h rfl).1
    | compound shape parts n =>
      obtain ⟨k, precision, scale, h, size, rest, rfl, rfl⟩ := exists_fixed_of_isNamed hnamed
      have hbase := (Schema.everywhere_compound_iff.mp hs).2 (.fixed h size) List.mem_cons_self
      exact (hbase.self.head h rfl).1
    | primitive p n => cases hnamed
    | reference ref => cases hnamed
  obtain ⟨hn, hspace⟩ := eq_of_fullName_eq hname hdot hfull
  rw [placed, hn, hspace]
  rfl

theorem writeReference_of_new {ref : Reference} {s : Schema} {w : List Text}
    (hs : r.lookup ref = some s) (hnew : s.full ∉ w) (steps : Nat) (enclosing : Option Text) :
    (writeReference r (steps + 1) ref enclosing).run w =
      (writeWith (writeReference r steps) enclosing s).run w := by
  have hcontains : w.contains s.full = false := by simpa using hnew
  simp only [writeReference, hs, StateT.run_bind, StateT.run_get]
  rw [pure_bind]
  simp only [hcontains, Bool.false_eq_true, if_false]

theorem writeReference_of_known {ref : Reference} {w : List Text}
    (hknown : ∀ s, r.lookup ref = some s → s.full ∈ w) (steps : Nat) (enclosing : Option Text) :
    (writeReference r (steps + 1) ref enclosing).run w =
      (writeReference r 0 ref enclosing).run w := by
  cases hs : r.lookup ref with
  | none =>
    simp only [writeReference, hs]
    rfl
  | some s =>
    have hcontains : w.contains s.full = true := by simpa using hknown s hs
    simp only [writeReference, hs, StateT.run_bind, StateT.run_get]
    rw [pure_bind]
    simp only [hcontains, if_true]

theorem follows_writeReference (hr : r.Lawful)
    (hentries : ∀ e ∈ r.entries, e.schema.Everywhere (Writable r bare)) (steps : Nat) :
    Follows r bare (writeReference r steps) := by
  induction steps with
  | zero =>
    intro ref enclosing w href he
    exact writes_name href he w
  | succ steps ih =>
    intro ref enclosing w href he
    unfold Writes
    by_cases hknown : ∀ s, r.lookup ref = some s → s.full ∈ w
    · rw [writeReference_of_known hknown]
      exact writes_name href he w
    · obtain ⟨s, hs, hnew⟩ : ∃ s, r.lookup ref = some s ∧ s.full ∉ w := by
        simpa only [not_forall, exists_prop] using hknown
      obtain ⟨e, hmem, rfl, hfull⟩ :=
        Registry.exists_entry_of_lookup (href.reference ref rfl).1 hs
      have hplace := placed_eq_of_full (hentries e hmem) (hr.named e hmem) href.proper hfull
      obtain ⟨types, hgrows, hread⟩ :=
        defines_named ih (hentries e hmem) (hr.named e hmem) he hnew
      rw [hplace] at hread
      rw [writeReference_of_new hs hnew]
      refine ⟨e.schema.asRead :: types, ?_, hread⟩
      exact hgrows.define hnew (hr.find?_of_mem hmem) (List.mem_map_of_mem hmem)

end Inner

end Document

end AvroIdl
