import AvroIdl.Proofs.FullNames
import AvroIdl.Proofs.RoundTrip

/-!
# Units whose document says what they are

The document of a unit is read back if the names in it can be mistaken for nothing else: either all
types have a namespace or none has one, no type is called like a primitive one, and no property
stands at a key of the written form that may be left out. Where references are bound, this is a
condition on the registered types alone.
-/
namespace AvroIdl

namespace Schema

/-- Nothing inside a type that is not named is a definition. -/
theorem head?_eq_none_of_inner {s t : Schema} {depth : Nat} (ho : t.Occurs depth s)
    (hp : s.Everywhere Proper) (hi : s.Inner) : t.head? = none := by
  induction ho with
  | here =>
    cases t with
    | record h e fields => cases hi
    | enumeration h symbols d => cases hi
    | fixed h size => cases hi
    | _ => rfl
  | inField member inside ih => cases hi
  | @inPart shape parts n p depth member inside ih =>
    obtain ⟨hself, hparts⟩ := everywhere_compound_iff.mp hp
    refine ih (hparts p member) ?_
    cases shape with
    | array =>
      obtain ⟨-, part, rfl, hinner⟩ := hself
      rw [List.mem_singleton.mp member]
      exact hinner
    | map =>
      obtain ⟨-, part, rfl, hinner⟩ := hself
      rw [List.mem_singleton.mp member]
      exact hinner
    | union o => exact (hself.2.1 p member).2
    | logical k precision scale =>
      obtain ⟨q, m, rfl⟩ := Document.exists_primitive_of_inner hself hi
      rw [List.mem_singleton.mp member]
      rfl

/-- The only definition in a named type is its own. -/
theorem ownName_of_head? {s t : Schema} {depth : Nat} {h : Head} (ho : t.Occurs depth s)
    (hp : s.Everywhere Proper) (hn : s.isNamed = true) (ht : t.head? = some h) :
    s.core.ownName = (h.name, h.space) := by
  cases ho with
  | here =>
    cases s with
    | record h' e fields => cases ht; rfl
    | enumeration h' symbols d => cases ht; rfl
    | fixed h' size => cases ht; rfl
    | _ => cases ht
  | @inField h' e fields f depth member inside =>
    obtain ⟨hself, hfields⟩ := everywhere_record_iff.mp hp
    rw [head?_eq_none_of_inner inside (hfields f member) (hself.2.2 f member).2] at ht
    cases ht
  | @inPart shape parts n p depth member inside =>
    obtain ⟨k, precision, scale, h', size, rest, rfl, rfl⟩ := Document.exists_fixed_of_isNamed hn
    obtain ⟨-, base, hbase, -⟩ := (everywhere_compound_iff.mp hp).1
    obtain ⟨rfl, rfl⟩ := List.cons.inj hbase
    rw [List.mem_singleton.mp member] at inside
    cases inside
    cases ht
    rfl

end Schema

namespace Registry

/-- A registry and messages of the shape that building and reading give them. -/
structure WellShaped (r : Registry) (messages : List Message) : Prop where
  lawful : r.Lawful
  types : ∀ e ∈ r.entries, e.schema.Everywhere Schema.Proper
  sent : ∀ m ∈ messages, m.Proper
  distinct : (messages.map (·.name)).Nodup

instance (r : Registry) (messages : List Message) : Decidable (r.WellShaped messages) :=
  decidable_of_iff
    (r.Lawful ∧ (∀ e ∈ r.entries, e.schema.Everywhere Schema.Proper) ∧
      (∀ m ∈ messages, m.Proper) ∧ (messages.map (·.name)).Nodup)
    ⟨fun ⟨lawful, types, sent, distinct⟩ => ⟨lawful, types, sent, distinct⟩,
      fun h => ⟨h.lawful, h.types, h.sent, h.distinct⟩⟩

/-- What is written for the registered types and the messages in a namespace can be mistaken for
nothing else. -/
structure Unambiguous (r : Registry) (messages : List Message) (space : Option Text) : Prop where
  spaces : (∀ e ∈ r.entries, normalizeNamespace e.schema.core.ownName.2 ≠ none) ∨
    (∀ e ∈ r.entries, normalizeNamespace e.schema.core.ownName.2 = none) ∧
      normalizeNamespace space = none
  names : ∀ e ∈ r.entries, Primitive.ofText? e.schema.core.ownName.1 = none
  clear : ∀ s ∈ r.unitTypes messages none, s.Everywhere Schema.Clear
  sent : ∀ m ∈ messages, m.Clear

instance (r : Registry) (messages : List Message) (space : Option Text) :
    Decidable (r.Unambiguous messages space) :=
  decidable_of_iff
    (((∀ e ∈ r.entries, normalizeNamespace e.schema.core.ownName.2 ≠ none) ∨
      (∀ e ∈ r.entries, normalizeNamespace e.schema.core.ownName.2 = none) ∧
        normalizeNamespace space = none) ∧
      (∀ e ∈ r.entries, Primitive.ofText? e.schema.core.ownName.1 = none) ∧
      (∀ s ∈ r.unitTypes messages none, s.Everywhere Schema.Clear) ∧ ∀ m ∈ messages, m.Clear)
    ⟨fun ⟨spaces, names, clear, sent⟩ => ⟨spaces, names, clear, sent⟩,
      fun h => ⟨h.spaces, h.names, h.clear, h.sent⟩⟩

section Writable

open Document

variable {r : Registry} {messages : List Message} {space : Option Text} {bare : Bool}

theorem Unambiguous.exists_bare (h : r.Unambiguous messages space) :
    ∃ bare, (∀ e ∈ r.entries, (normalizeNamespace e.schema.core.ownName.2).isNone = bare) ∧
      InForce bare space := by
  rcases h.spaces with hsome | ⟨hnone, hspace⟩
  · refine ⟨false, fun e he => ?_, fun h => by cases h⟩
    exact Option.isNone_eq_false_iff.mpr (Option.isSome_iff_ne_none.mpr (hsome e he))
  · refine ⟨true, fun e he => ?_, fun _ => hspace⟩
    simpa using hnone e he

theorem Lawful.dot_notMem (hr : r.Lawful) {e : Entry} (he : e ∈ r.entries) :
    Byte.dot ∉ e.schema.core.ownName.1 := by
  have hlegal := hr.legal e he
  rw [isLegalName, Bool.and_eq_true] at hlegal
  exact Name.dot_notMem hlegal.1

theorem Binds.exists_same_name (hr : r.Lawful) {ref : Reference} (hb : r.Binds ref)
    (hdot : Byte.dot ∉ ref.name) :
    ∃ e ∈ r.entries, e.schema.core.ownName.1 = ref.name ∧
      normalizeNamespace e.schema.core.ownName.2 = normalizeNamespace ref.space := by
  obtain ⟨i, e, -, he, hfull⟩ := hb
  have hmem := List.mem_of_getElem? he
  exact ⟨e, hmem, eq_of_fullName_eq (hr.dot_notMem hmem) hdot hfull⟩

/-- The types of a unit whose names say what they are can be written. -/
theorem writable_of_unambiguous (hr : r.Lawful) (hb : r.Bound messages)
    (hu : r.Unambiguous messages space)
    (hbare : ∀ e ∈ r.entries, (normalizeNamespace e.schema.core.ownName.2).isNone = bare)
    {s : Schema} (hs : s ∈ r.unitTypes messages none) (hp : s.Everywhere Schema.Proper)
    (hhead : ∀ (depth : Nat) (t : Schema) (h : Head), t.Occurs depth s → t.head? = some h →
      ∃ e ∈ r.entries, e.schema.core.ownName = (h.name, h.space)) :
    s.Everywhere (Writable r bare) := by
  intro depth t ho
  refine ⟨hp depth t ho, hu.clear s hs depth t ho, ?_, ?_⟩
  · intro h ht
    obtain ⟨e, he, hown⟩ := hhead depth t h ho ht
    have hdot := hr.dot_notMem he
    have hspace := hbare e he
    rw [hown] at hdot hspace
    exact ⟨hdot, hspace⟩
  · rintro ref rfl
    have hbinds := hb s hs depth ref ho
    obtain ⟨e, he, hname, hspace⟩ := hbinds.exists_same_name hr (hp depth _ ho)
    refine ⟨.inr hbinds, ?_, ?_⟩
    · rw [← hspace]
      exact hbare e he
    · rw [← hname]
      exact hu.names e he

theorem WellShaped.ready (hw : r.WellShaped messages) (hb : r.Bound messages)
    (hu : r.Unambiguous messages space)
    (hbare : ∀ e ∈ r.entries, (normalizeNamespace e.schema.core.ownName.2).isNone = bare) :
    Ready r bare := by
  refine ⟨hw.lawful, fun e he => ?_⟩
  have hs : e.schema ∈ r.unitTypes messages none := by
    simp only [unitTypes, List.mem_append, List.mem_map]
    exact .inl (.inl ⟨e, he, rfl⟩)
  refine writable_of_unambiguous hw.lawful hb hu hbare hs (hw.types e he) ?_
  intro depth t h ho ht
  exact ⟨e, he, Schema.ownName_of_head? ho (hw.types e he) (hw.lawful.named e he) ht⟩

theorem WellShaped.sendable (hw : r.WellShaped messages) (hb : r.Bound messages)
    (hu : r.Unambiguous messages space)
    (hbare : ∀ e ∈ r.entries, (normalizeNamespace e.schema.core.ownName.2).isNone = bare)
    {m : Message} (hm : m ∈ messages) : Sendable r bare m := by
  refine ⟨hw.sent m hm, hu.sent m hm, fun s hs => ?_⟩
  have hmem : s ∈ r.unitTypes messages none := by
    simp only [unitTypes, List.mem_append, List.mem_flatMap]
    exact .inl (.inr ⟨m, hm, hs⟩)
  obtain ⟨hp, hi⟩ := (hw.sent m hm).types s hs
  refine writable_of_unambiguous hw.lawful hb hu hbare hmem hp ?_
  intro depth t h ho ht
  rw [Schema.head?_eq_none_of_inner ho hp hi] at ht
  cases ht

end Writable

end Registry

namespace Document

variable {r : Registry} {p : Protocol}

theorem full_perm_of_perm {types : List Schema}
    (h : types.Perm (r.entries.map fun e => e.schema.asRead)) :
    (types.map Schema.full).Perm r.names := by
  have hmap := h.map Schema.full
  rw [List.map_map] at hmap
  have hnames : r.entries.map (Schema.full ∘ fun e => e.schema.asRead) = r.names :=
    List.map_congr_left fun e _ => e.schema.full_asRead
  rwa [hnames] at hmap

theorem settles_protocol_of_unambiguous (hw : r.WellShaped p.messages) (hb : r.Bound p.messages)
    (hu : r.Unambiguous p.messages p.space) (hspace : ("namespace" : Text) ∉ p.properties.keys)
    (htypes : p.types = r.names) :
    ∃ types, types.Perm (r.entries.map fun e => e.schema.asRead) ∧
      Settles (fun levels => readProtocol true levels ((writeProtocol r p).run []).1)
        ⟨types, p.messages.map Message.asRead⟩ := by
  obtain ⟨bare, hbare, hforce⟩ := hu.exists_bare
  have hsent : ∀ m ∈ p.messages, Sendable r bare m := fun m hm => hw.sendable hb hu hbare hm
  exact settles_writeProtocol (hw.ready hb hu hbare) ⟨hsent, hw.distinct, htypes, hforce, hspace⟩

theorem settles_named_of_unambiguous {messages : List Message} {space : Option Text}
    (hw : r.WellShaped messages) (hb : r.Bound messages) (hu : r.Unambiguous messages space) :
    ∃ types, types.Perm (r.entries.map fun e => e.schema.asRead) ∧
      Settles (fun levels => (do
        let read ← readSchema true levels none ((writeNamed r r.names).run []).1
        return { types := read.types } : Outcome Document)) { types := types } := by
  obtain ⟨bare, hbare, -⟩ := hu.exists_bare
  obtain ⟨types, schema, hperm, hread⟩ := settles_writeNamed (hw.ready hb hu hbare)
  exact ⟨types, hperm, hread.bind (settles_ok _)⟩

/-- A document that was written is read with enough levels, and with fewer it is found too deep and
nothing else; so the reader of documents, which has a fixed number of them, either says so or reads
it. What is read has every registered type exactly once and all messages in their order. This holds
for protocols and for the list of all types. -/
theorem read_back_of_unambiguous (hw : r.WellShaped p.messages) (hb : r.Bound p.messages)
    (hu : r.Unambiguous p.messages p.space) (hspace : ("namespace" : Text) ∉ p.properties.keys)
    (htypes : p.types = r.names) :
    (∃ d, Settles (fun levels => readProtocol true levels ((writeProtocol r p).run []).1) d ∧
      (ofProtocol true ((writeProtocol r p).run []).1 = .error [.tooDeep] ∨
        ofProtocol true ((writeProtocol r p).run []).1 = .ok d) ∧
      (d.types.map Schema.full).Perm r.names ∧
      d.types.Perm (r.entries.map fun e => e.schema.asRead) ∧
      d.messages = p.messages.map Message.asRead) ∧
    ∃ d, Settles (fun levels => (do
        let read ← readSchema true levels none ((writeNamed r r.names).run []).1
        return { types := read.types } : Outcome Document)) d ∧
      (ofSchema true ((writeNamed r r.names).run []).1 = .error [.tooDeep] ∨
        ofSchema true ((writeNamed r r.names).run []).1 = .ok d) ∧
      (d.types.map Schema.full).Perm r.names ∧
      d.types.Perm (r.entries.map fun e => e.schema.asRead) ∧ d.messages = [] := by
  constructor
  · obtain ⟨types, hperm, hread⟩ := settles_protocol_of_unambiguous hw hb hu hspace htypes
    exact ⟨_, hread, hread.at_levels fullLevels, full_perm_of_perm hperm, hperm, rfl⟩
  · obtain ⟨types, hperm, hread⟩ := settles_named_of_unambiguous hw hb hu
    exact ⟨_, hread, hread.at_levels fullLevels, full_perm_of_perm hperm, hperm, rfl⟩

section Node

/-- A record that may refer to itself and has an alias in its own namespace. -/
def nodeReference : Schema := .reference { name := "Node", space := some "geo", binding := some 0 }

def nodeLink : Schema := .compound (.union true) [.plain .null, nodeReference] {}

def nodeRecord : Schema :=
  .record { name := "Node", space := some "geo", aliases := ["geo.Vertex"] } false
    [{ name := "next", type := nodeLink }]

def nodeRegistry : Registry := { entries := [{ schema := nodeRecord, origin := [] }] }

def nodeProtocol : Protocol :=
  { name := "P", space := some "geo", types := ["geo.Node"]
    messages := [{ name := "first", response := nodeReference }] }

theorem nodeRegistry_unambiguous :
    nodeRegistry.WellShaped nodeProtocol.messages ∧ nodeRegistry.Bound nodeProtocol.messages ∧
      nodeRegistry.Unambiguous nodeProtocol.messages nodeProtocol.space ∧
      nodeProtocol.types = nodeRegistry.names ∧
      ("namespace" : Text) ∉ nodeProtocol.properties.keys := by
  decide +kernel

theorem nodeProtocol_reads :
    ∃ d, ofProtocol true ((writeProtocol nodeRegistry nodeProtocol).run []).1 = .ok d ∧
      ∃ s ∈ d.types, s.full = nodeRecord.full ∧
        s.head?.map (·.aliases) ≠ nodeRecord.head?.map (·.aliases) := by
  have hread : (ofProtocol true ((writeProtocol nodeRegistry nodeProtocol).run []).1).toOption.any
      (fun d => d.types.any fun s => s.full == nodeRecord.full &&
        s.head?.map (·.aliases) != nodeRecord.head?.map (·.aliases)) = true := by
    decide +kernel
  obtain ⟨d, hd, hcheck⟩ := exists_ok_of_any hread
  simp only [List.any_eq_true, Bool.and_eq_true, beq_iff_eq, bne_iff_ne] at hcheck
  exact ⟨d, hd, hcheck⟩

/-- The record comes back with its own name, its reference and the message that returns it. -/
theorem nodeProtocol_read_back :
    ∃ d, ofProtocol true ((writeProtocol nodeRegistry nodeProtocol).run []).1 = .ok d ∧
      d.types = [nodeRecord.asRead] ∧ d.messages = nodeProtocol.messages.map Message.asRead := by
  obtain ⟨d, hd, -⟩ := nodeProtocol_reads
  obtain ⟨hw, hb, hu, htypes, hspace⟩ := nodeRegistry_unambiguous
  obtain ⟨⟨d', -, hread, -, hperm, hmessages⟩, -⟩ :=
    read_back_of_unambiguous hw hb hu hspace htypes
  rw [hd] at hread
  obtain rfl : d = d' := by simpa using hread
  exact ⟨d, hd, List.perm_singleton.mp hperm, hmessages⟩

/-- An alias in the namespace of its type is written and read without that namespace, so the content
of a type that is read need not be the one that was written. -/
theorem exists_shortened_alias :
    (nodeRegistry.WellShaped nodeProtocol.messages ∧ nodeRegistry.Bound nodeProtocol.messages ∧
      nodeRegistry.Unambiguous nodeProtocol.messages nodeProtocol.space ∧
      nodeProtocol.types = nodeRegistry.names ∧
      ("namespace" : Text) ∉ nodeProtocol.properties.keys) ∧
    ∃ d, ofProtocol true ((writeProtocol nodeRegistry nodeProtocol).run []).1 = .ok d ∧
      ∃ s ∈ d.types, s.full = nodeRecord.full ∧
        s.head?.map (·.aliases) ≠ nodeRecord.head?.map (·.aliases) :=
  ⟨nodeRegistry_unambiguous, nodeProtocol_reads⟩

end Node

end Document

end AvroIdl
