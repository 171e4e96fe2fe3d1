import AvroIdl.Proofs.CompiledDocument

/-!
# Invariants of a compiled unit

What always holds of a unit that was compiled, whatever it was built and imported from: unions are
flat and their branches can be told apart, names are legal and used once, and a named type is
defined in the registry and nowhere else.
-/
namespace AvroIdl

/-- The full name of a type that may be registered is made of valid names with dots between them. -/
theorem Registry.isValidNamespace_of_isLegalName {name : Text} {space : Option Text}
    (h : isLegalName name space = true) : Name.isValidNamespace (fullName name space) = true := by
  have hvalid := isLegalName_iff.mp h
  have hfull : fullName name space = QualifiedName.full ⟨name, space⟩ := hvalid.fullName_eq
  rw [hfull, ← QualifiedName.isValid_iff (Name.dot_notMem hvalid.name)]
  exact hvalid

namespace Schema

/-- The definition of a named type: a record, an enumeration, a fixed type, or a meaning over a
fixed type. -/
inductive Definition : Schema → Prop
  | record (h : Head) (isError : Bool) (fields : List Field) :
    Definition (.record h isError fields)
  | enumeration (h : Head) (symbols : List Text) (default : Option Text) :
    Definition (.enumeration h symbols default)
  | fixed (h : Head) (size : Nat) : Definition (.fixed h size)
  | logical (kind : LogicalKind) (precision scale : Nat) (h : Head) (size : Nat) (n : Note) :
    Definition (.compound (.logical kind precision scale) [.fixed h size] n)

theorem definition_of_isNamed {s : Schema} (hp : s.Proper) (hn : s.isNamed = true) :
    s.Definition := by
  cases s with
  | record h e fields => exact .record h e fields
  | enumeration h symbols d => exact .enumeration h symbols d
  | fixed h size => exact .fixed h size
  | compound shape parts n =>
    obtain ⟨k, precision, scale, h, size, rest, rfl, rfl⟩ := Document.exists_fixed_of_isNamed hn
    obtain ⟨-, base, hbase, -⟩ := hp
    obtain ⟨-, rfl⟩ := List.cons.inj hbase
    exact .logical k precision scale h size n
  | primitive p n => cases hn
  | reference r => cases hn

/-- A definition that stands inside another schema is the fixed type of a logical one. -/
theorem Definition.eq_logical_of_occurs {s t : Schema} {depth : Nat} {h : Head}
    (hs : s.Definition) (hp : s.Everywhere Proper) (ho : t.Occurs (depth + 1) s)
    (ht : t.head? = some h) :
    ∃ kind precision scale size n,
      s = .compound (.logical kind precision scale) [.fixed h size] n ∧ t = .fixed h size := by
  cases hs with
  | record h' e fields =>
    obtain ⟨f, hf, inside⟩ := occurs_succ_record_iff.mp ho
    obtain ⟨hself, hfields⟩ := everywhere_record_iff.mp hp
    rw [head?_eq_none_of_inner inside (hfields f hf) (hself.2.2 f hf).2] at ht
    cases ht
  | enumeration h' symbols d => cases ho
  | fixed h' size => cases ho
  | logical k precision scale h' size n =>
    obtain ⟨p, hmem, inside⟩ := occurs_succ_compound_iff.mp ho
    rw [List.mem_singleton.mp hmem] at inside
    cases inside
    cases ht
    exact ⟨k, precision, scale, size, n, rfl, rfl⟩

end Schema

namespace Compilation

/-- The types of messages and the main schema of a unit, which only refer to named types. -/
def Root.usedTypes (unit : Root) : List Schema :=
  (Root.messages unit.file).flatMap Message.types ++ (Root.main? unit.file).toList

theorem Root.mem_types_iff {unit : Root} {s : Schema} :
    s ∈ unit.types ↔ (∃ e ∈ unit.registry.entries, e.schema = s) ∨ s ∈ unit.usedTypes := by
  simp [Root.types, Root.usedTypes, Registry.unitTypes]

/-- The invariants of a compiled unit. A schema occurs in it if it stands, at any depth, in a
registered type, in a type of a message or in the main schema. -/
structure Root.Sound (unit : Root) : Prop where
  unions : ∀ s ∈ unit.types, ∀ depth isOptional branches n,
    (Schema.compound (.union isOptional) branches n).Occurs depth s →
      (∀ b ∈ branches, b.isUnion = false) ∧ (branches.map Schema.branchKey).Nodup
  symbols : ∀ s ∈ unit.types, ∀ depth h symbols default,
    (Schema.enumeration h symbols default).Occurs depth s → symbols.Nodup
  fields : ∀ s ∈ unit.types, ∀ depth h isError fields,
    (Schema.record h isError fields).Occurs depth s → (fields.map (·.name)).Nodup
  parameters : ∀ m ∈ Root.messages unit.file, (m.request.map (·.name)).Nodup
  messages : ((Root.messages unit.file).map (·.name)).Nodup
  names : unit.registry.names.Nodup
  legal : ∀ full ∈ unit.registry.names, Name.isValidNamespace full = true
  entries : ∀ e ∈ unit.registry.entries, e.schema.Definition
  /-- A definition inside a registered type is the fixed type to which that type gives a meaning. -/
  nested : ∀ e ∈ unit.registry.entries, ∀ depth (t : Schema) h, t.Occurs (depth + 1) e.schema →
    t.head? = some h → ∃ kind precision scale size n,
      e.schema = .compound (.logical kind precision scale) [.fixed h size] n ∧ t = .fixed h size
  used : ∀ s ∈ unit.usedTypes, ∀ depth (t : Schema), t.Occurs depth s → t.head? = none

section Compiled

variable {tree : FileTree} {searchDirectories : List Path} {source : Text} {path : Path}
  {unit : Root}

theorem inner_of_mem_usedTypes (h : (root tree searchDirectories source path).result = .ok unit)
    {s : Schema} (hs : s ∈ unit.usedTypes) : s.Everywhere Schema.Proper ∧ s.Inner := by
  rcases List.mem_append.mp hs with hs | hs
  · obtain ⟨m, hm, hs⟩ := List.mem_flatMap.mp hs
    exact ((wellShaped_of_root h).sent m hm).types s hs
  · obtain ⟨registry, file, hr, hf, hfinish⟩ := root_eq_ok h
    obtain ⟨-, -, rfl⟩ := finish_eq_ok hfinish
    rw [(Root.content_resolved registry file _).2, Option.mem_toList] at hs
    obtain ⟨s₀, hs₀, rfl⟩ := Option.map_eq_some_iff.mp hs
    have hpart := (hf.main s₀ hs₀).part
    exact ⟨Schema.everywhere_proper_bindAll hpart.fresh.proper _,
      (Schema.isNamed_bind _ _ s₀).trans hpart.inner⟩

theorem proper_of_mem_types (h : (root tree searchDirectories source path).result = .ok unit)
    {s : Schema} (hs : s ∈ unit.types) : s.Everywhere Schema.Proper := by
  rcases Root.mem_types_iff.mp hs with ⟨e, he, rfl⟩ | hs
  · exact (wellShaped_of_root h).types e he
  · exact (inner_of_mem_usedTypes h hs).1

/-- Every unit that compiles has the invariants. -/
theorem sound_of_root (h : (root tree searchDirectories source path).result = .ok unit) :
    unit.Sound := by
  have hw := wellShaped_of_root h
  have hproper : ∀ s ∈ unit.types, s.Everywhere Schema.Proper := fun s hs =>
    proper_of_mem_types h hs
  have hentries : ∀ e ∈ unit.registry.entries, e.schema.Definition := fun e he =>
    Schema.definition_of_isNamed (hw.types e he).self (hw.lawful.named e he)
  refine ⟨?_, ?_, ?_, ?_, hw.distinct, hw.lawful.distinct, ?_, hentries, ?_, ?_⟩
  · intro s hs depth isOptional branches n ho
    obtain ⟨-, hbranches, hkeys⟩ := hproper s hs depth _ ho
    exact ⟨fun b hb => (hbranches b hb).1, hkeys⟩
  · intro s hs depth h symbols d ho
    exact (hproper s hs depth _ ho).2
  · intro s hs depth h isError fields ho
    exact (hproper s hs depth _ ho).2.1
  · intro m hm
    exact (hw.sent m hm).names
  · intro full hfull
    obtain ⟨e, he, rfl⟩ := List.mem_map.mp hfull
    exact Registry.isValidNamespace_of_isLegalName (hw.lawful.legal e he)
  · intro e he depth t head ho ht
    exact (hentries e he).eq_logical_of_occurs (hw.types e he) ho ht
  · intro s hs depth t ho
    obtain ⟨hp, hi⟩ := inner_of_mem_usedTypes h hs
    exact Schema.head?_eq_none_of_inner ho hp hi

end Compiled

/-- A protocol that imports a source, a protocol and a schema, beside the files that it imports. -/
def mixedTree : FileTree :=
  ((({} : FileTree).putFile [("a.avdl" : Text)] "enum Suit \x7b RED, BLACK \x7d").putFile
    [("b.avpr" : Text)] ("\x7b\"protocol\": \"B\", \"types\": [\x7b\"type\": \"fixed\", " ++
      "\"name\": \"Wait\", \"size\": 12, \"logicalType\": \"duration\"\x7d]\x7d")).putFile
    [("c.avsc" : Text)] ("\x7b\"type\": \"record\", \"name\": \"Pair\", \"fields\": " ++
      "[\x7b\"name\": \"x\", \"type\": [\"null\", \"int\"]\x7d]\x7d")

def mixedSource : Text :=
  "protocol P \x7b import idl \"a.avdl\"; import protocol \"b.avpr\"; " ++
    "import schema \"c.avsc\"; record Card \x7b union \x7b null, Suit \x7d suit; " ++
    "Wait? held; \x7d Card draw(Pair pair, int count); \x7d"

theorem mixedSource_sound :
    ∃ unit, (root mixedTree [] mixedSource ⟨"p.avdl"⟩).result = .ok unit ∧
      unit.registry.names = ["Suit", "Wait", "Pair", "Card"].map Text.ofAscii ∧ unit.Sound := by
  have hrun : (root mixedTree [] mixedSource ⟨"p.avdl"⟩).result.toOption.any (fun unit =>
      unit.registry.names == ["Suit", "Wait", "Pair", "Card"].map Text.ofAscii) = true := by
    decide +kernel
  obtain ⟨unit, hunit, hnames⟩ := exists_ok_of_any hrun
  exact ⟨unit, hunit, beq_iff_eq.mp hnames, sound_of_root hunit⟩

end Compilation

end AvroIdl
