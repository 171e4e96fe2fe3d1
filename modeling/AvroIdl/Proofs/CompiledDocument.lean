import AvroIdl.Proofs.CompiledUnit
import AvroIdl.Proofs.Unambiguous

/-!
# Names in the document of a compiled unit

The document of a compiled unit is read with the same names. Every reference in it has the full name
of the type that it is bound to, and the types of the document are those of the registry. The names
of a unit have to be unambiguous for that: a name without a namespace is taken for one in the
namespace around it, and the name of a primitive type for that type.
-/
namespace AvroIdl

namespace Compilation

open Document Build

def Root.space (file : IdlFile) : Option Text :=
  match file.content with
  | .protocol p => p.space
  | _ => none

/-- What a reader with the given levels finds in the document of a unit. -/
def Root.reread (unit : Root) (levels : Nat) : Outcome Document :=
  match unit.file.content with
  | .protocol _ => readProtocol true levels unit.document
  | _ => do return { types := (← readSchema true levels none unit.document).types }

theorem Root.names_resolved (file : IdlFile) (messages : List Message) (main : Option Schema)
    (names : List Text) : (Root.resolved file messages main names).names = names := by
  unfold Root.resolved
  split <;> rfl

theorem Root.protocol_of_resolved {file : IdlFile} {messages : List Message} {main : Option Schema}
    {names : List Text} {p : Protocol}
    (h : (Root.resolved file messages main names).content = .protocol p) :
    ∃ p₀, file.content = .protocol p₀ ∧ p = { p₀ with messages := messages, types := names } := by
  obtain ⟨content, _⟩ := file
  cases content with
  | protocol p₀ =>
    cases h
    exact ⟨p₀, rfl, rfl⟩
  | schema s => cases main <;> cases h
  | named => cases h

section Compiled

variable {tree : FileTree} {searchDirectories : List Path} {source : Text} {path : Path}
  {unit : Root}

theorem wellShaped_of_root (h : (root tree searchDirectories source path).result = .ok unit) :
    unit.registry.WellShaped (Root.messages unit.file) := by
  obtain ⟨registry, file, hr, hf, hfinish⟩ := root_eq_ok h
  obtain ⟨-, -, rfl⟩ := finish_eq_ok hfinish
  dsimp only
  rw [(Root.content_resolved registry file _).1]
  refine ⟨hr.lawful.resolveAll _ _, ?_, ?_, ?_⟩
  · intro e he
    obtain ⟨e₀, he₀, rfl⟩ := List.mem_map.mp he
    exact Schema.everywhere_proper_bindAll (hr.declared e₀ he₀).fresh.proper _
  · intro m hm
    obtain ⟨m₀, hm₀, rfl⟩ := List.mem_map.mp hm
    exact (hf.messages.declared m₀ hm₀).fresh.proper.bindAll _
  · have hnames : (registry.resolveAll (Root.messages file) (Root.main? file)).messages.map
        (·.name) = (Root.messages file).map (·.name) := by
      simp [Registry.resolveAll, Message.bindAll, List.map_map, Function.comp_def]
    rw [hnames]
    exact hf.messages.distinct

theorem content_of_root (h : (root tree searchDirectories source path).result = .ok unit) :
    unit.file.names = unit.registry.names ∧
      ∀ p, unit.file.content = .protocol p →
        p.types = unit.registry.names ∧ ("namespace" : Text) ∉ p.properties.keys := by
  obtain ⟨registry, file, hr, hf, hfinish⟩ := root_eq_ok h
  obtain ⟨-, -, rfl⟩ := finish_eq_ok hfinish
  dsimp only
  refine ⟨Root.names_resolved .., fun p hp => ?_⟩
  obtain ⟨p₀, hp₀, rfl⟩ := Root.protocol_of_resolved hp
  exact ⟨rfl, hf.properties p₀ hp₀⟩

/-- Among the types that were read, the one of a registered name is the registered type. -/
theorem find?_of_perm {r : Registry} (hr : r.Lawful) {types : List Schema}
    (h : types.Perm (r.entries.map fun e => e.schema.asRead)) {e : Registry.Entry}
    (he : e ∈ r.entries) :
    types.find? (fun t => t.full == e.schema.full) = some e.schema.asRead := by
  have hnodup : (types.map Schema.full).Nodup := (full_perm_of_perm h).nodup_iff.mpr hr.distinct
  have hmem : e.schema.asRead ∈ types := h.mem_iff.mpr (List.mem_map_of_mem he)
  have hfull : e.schema.asRead.full = e.schema.full := e.schema.full_asRead
  cases hfind : types.find? (fun t => t.full == e.schema.full) with
  | none =>
    have hno := List.find?_eq_none.mp hfind _ hmem
    exact absurd (beq_iff_eq.mpr hfull) hno
  | some t =>
    have ht := List.find?_some hfind
    have hsame : t.full = e.schema.asRead.full := (beq_iff_eq.mp ht).trans hfull.symm
    rw [List.inj_on_of_nodup_map hnodup (List.mem_of_find?_eq_some hfind) hmem hsame]

/-- A reference has the name of one type of the document, and that is the one it is bound to. -/
theorem exists_found_of_bound {r : Registry} {messages : List Message} (hr : r.Lawful)
    (hb : r.Bound messages) {types : List Schema}
    (h : types.Perm (r.entries.map fun e => e.schema.asRead)) {s : Schema}
    (hs : s ∈ r.unitTypes messages none) {depth : Nat} {ref : Reference}
    (ho : (Schema.reference ref).Occurs depth s) :
    ∃ i e, ref.binding = some i ∧ r.entries[i]? = some e ∧
      types.find? (fun t => t.full == ref.asRead.full) = some e.schema.asRead := by
  obtain ⟨i, e, hi, he, hfull⟩ := hb s hs depth ref ho
  refine ⟨i, e, hi, he, ?_⟩
  rw [Schema.full_asRead_reference, ← hfull]
  exact find?_of_perm hr h (List.mem_of_getElem? he)

/-- The document of a compiled unit is read with the same names. Its types are the registered ones,
its messages are those of the unit, and a reference has the name of the type that it is bound to. -/
theorem reread_of_unambiguous (h : (root tree searchDirectories source path).result = .ok unit)
    (hmain : Root.main? unit.file = none)
    (hb : unit.registry.Bound (Root.messages unit.file))
    (hu : unit.registry.Unambiguous (Root.messages unit.file) (Root.space unit.file)) :
    ∃ d, Settles unit.reread d ∧ (d.types.map Schema.full).Perm unit.registry.names ∧
      d.types.Perm (unit.registry.entries.map fun e => e.schema.asRead) ∧
      d.messages = (Root.messages unit.file).map Message.asRead ∧
      ∀ s ∈ unit.types, ∀ depth ref, (Schema.reference ref).Occurs depth s →
        ∃ i e, ref.binding = some i ∧ unit.registry.entries[i]? = some e ∧
          d.types.find? (fun t => t.full == ref.asRead.full) = some e.schema.asRead := by
  have hw := wellShaped_of_root h
  obtain ⟨hnames, hprotocol⟩ := content_of_root h
  -- the types that are read decide everything but the reading itself
  suffices hread : ∃ types, types.Perm (unit.registry.entries.map fun e => e.schema.asRead) ∧
      Settles unit.reread ⟨types, (Root.messages unit.file).map Message.asRead⟩ by
    obtain ⟨types, hperm, hread⟩ := hread
    refine ⟨_, hread, full_perm_of_perm hperm, hperm, rfl, fun s hs depth ref ho => ?_⟩
    rw [Root.types, hmain] at hs
    exact exists_found_of_bound hw.lawful hb hperm hs ho
  unfold Root.reread
  cases hcontent : unit.file.content with
  | schema s => simp [Root.main?, hcontent] at hmain
  | protocol p =>
    have hmessages : Root.messages unit.file = p.messages := by simp [Root.messages, hcontent]
    have hspace : Root.space unit.file = p.space := by simp [Root.space, hcontent]
    have hdocument : unit.document = ((writeProtocol unit.registry p).run []).1 := by
      simp [Root.document, hcontent]
    rw [hmessages] at hw hb hu ⊢
    rw [hspace] at hu
    obtain ⟨htypes, hproperties⟩ := hprotocol p hcontent
    rw [hdocument]
    exact settles_protocol_of_unambiguous hw hb hu hproperties htypes
  | named =>
    have hmessages : Root.messages unit.file = [] := by simp [Root.messages, hcontent]
    have hdocument : unit.document =
        ((writeNamed unit.registry unit.registry.names).run []).1 := by
      simp [Root.document, hcontent, hnames]
    obtain ⟨types, hperm, hread⟩ := settles_named_of_unambiguous hw hb hu
    rw [hdocument, hmessages]
    exact ⟨types, hperm, hread⟩

end Compiled

/-- A record that may refer to itself, and a message that returns it. -/
def nodeSource : Text :=
  "@namespace(\"geo\") protocol P \x7b " ++
    "record Node \x7b union \x7b null, Node \x7d next; \x7d Node first(); \x7d"

theorem nodeSource_reread :
    ∃ unit d, (root {} [] nodeSource ⟨"p.avdl"⟩).result = .ok unit ∧ Settles unit.reread d ∧
      (d.types.map Schema.full).Perm [("geo.Node" : Text)] := by
  have hrun : (root {} [] nodeSource ⟨"p.avdl"⟩).result.toOption.any (fun unit =>
      unit.registry.names == [("geo.Node" : Text)] && (Root.main? unit.file).isNone &&
        unit.registry.Bound (Root.messages unit.file) &&
        unit.registry.Unambiguous (Root.messages unit.file) (Root.space unit.file)) = true := by
    decide +kernel
  obtain ⟨unit, hunit, hcheck⟩ := exists_ok_of_any hrun
  simp only [Bool.and_eq_true, beq_iff_eq, Option.isNone_iff_eq_none, decide_eq_true_eq] at hcheck
  obtain ⟨⟨⟨hnames, hmain⟩, hb⟩, hu⟩ := hcheck
  obtain ⟨d, hread, hperm, -⟩ := reread_of_unambiguous hunit hmain hb hu
  exact ⟨unit, d, hunit, hread, hnames ▸ hperm⟩

/-- A field of a record that is called like a primitive type. -/
def escapedSource : Text :=
  "protocol P \x7b record `string` \x7b\x7d record R \x7b `string` f; \x7d \x7d"

/-- A type without a namespace in a protocol that has one. -/
def bareSource : Text :=
  "@namespace(\"geo\") protocol P \x7b @namespace(\"\") record Node \x7b\x7d \x7d"

/-- A property at the key of the documentation. -/
def keyedSource : Text := "protocol P \x7b @doc(3) record R \x7b\x7d \x7d"

theorem escapedSource_read :
    ∃ unit d, (root {} [] escapedSource ⟨"p.avdl"⟩).result = .ok unit ∧
      ofProtocol true unit.document = .ok d ∧
      (∃ s ∈ unit.types, s.full = "R" ∧ ∃ ref ∈ s.allReferences, unit.registry.Binds ref) ∧
      ∃ s ∈ d.types, s.full = "R" ∧ s.allReferences = [] := by
  have hrun : (root {} [] escapedSource ⟨"p.avdl"⟩).result.toOption.any (fun unit =>
      (unit.types.any fun s => s.full == "R" && s.allReferences.any fun ref =>
        unit.registry.Binds ref) &&
      (ofProtocol true unit.document).toOption.any fun d =>
        d.types.any fun s => s.full == "R" && s.allReferences.isEmpty) = true := by
    decide +kernel
  obtain ⟨unit, hunit, hcheck⟩ := exists_ok_of_any hrun
  rw [Bool.and_eq_true] at hcheck
  obtain ⟨d, hd, hcheck'⟩ := exists_ok_of_any hcheck.2
  simp only [List.any_eq_true, Bool.and_eq_true, beq_iff_eq, decide_eq_true_eq,
    List.isEmpty_iff] at hcheck hcheck'
  exact ⟨unit, d, hunit, hd, hcheck.1, hcheck'⟩

theorem bareSource_read :
    ∃ unit d, (root {} [] bareSource ⟨"p.avdl"⟩).result = .ok unit ∧
      ofProtocol true unit.document = .ok d ∧ unit.registry.names = [("Node" : Text)] ∧
      d.types.map Schema.full = [("geo.Node" : Text)] := by
  have hrun : (root {} [] bareSource ⟨"p.avdl"⟩).result.toOption.any (fun unit =>
      unit.registry.names == [("Node" : Text)] &&
      (ofProtocol true unit.document).toOption.any fun d =>
        d.types.map Schema.full == [("geo.Node" : Text)]) = true := by
    decide +kernel
  obtain ⟨unit, hunit, hcheck⟩ := exists_ok_of_any hrun
  rw [Bool.and_eq_true, beq_iff_eq] at hcheck
  obtain ⟨d, hd, hcheck'⟩ := exists_ok_of_any hcheck.2
  exact ⟨unit, d, hunit, hd, hcheck.1, beq_iff_eq.mp hcheck'⟩

theorem keyedSource_read :
    ∃ unit, (root {} [] keyedSource ⟨"p.avdl"⟩).result = .ok unit ∧
      unit.registry.names = [("R" : Text)] ∧ ∀ d, ofProtocol true unit.document ≠ .ok d := by
  have hrun : (root {} [] keyedSource ⟨"p.avdl"⟩).result.toOption.any (fun unit =>
      unit.registry.names == [("R" : Text)] &&
        (ofProtocol true unit.document).toOption.isNone) = true := by
    decide +kernel
  obtain ⟨unit, hunit, hcheck⟩ := exists_ok_of_any hrun
  rw [Bool.and_eq_true, beq_iff_eq] at hcheck
  refine ⟨unit, hunit, hcheck.1, fun d hd => ?_⟩
  rw [hd] at hcheck
  exact absurd hcheck.2 (by simp [Except.toOption])

/-- Names of a compiled unit may be read as others: as a primitive type, as a name in a namespace,
or not at all. -/
theorem exists_changed_names :
    (∃ unit d, (root {} [] escapedSource ⟨"p.avdl"⟩).result = .ok unit ∧
      ofProtocol true unit.document = .ok d ∧
      (∃ s ∈ unit.types, s.full = "R" ∧ ∃ ref ∈ s.allReferences, unit.registry.Binds ref) ∧
      ∃ s ∈ d.types, s.full = "R" ∧ s.allReferences = []) ∧
    (∃ unit d, (root {} [] bareSource ⟨"p.avdl"⟩).result = .ok unit ∧
      ofProtocol true unit.document = .ok d ∧ unit.registry.names = [("Node" : Text)] ∧
      d.types.map Schema.full = [("geo.Node" : Text)]) ∧
    ∃ unit, (root {} [] keyedSource ⟨"p.avdl"⟩).result = .ok unit ∧
      unit.registry.names = [("R" : Text)] ∧ ∀ d, ofProtocol true unit.document ≠ .ok d :=
  ⟨escapedSource_read, bareSource_read, keyedSource_read⟩

end Compilation

end AvroIdl
