import AvroIdl.Proofs.Binding
import AvroIdl.Proofs.BuiltShape
import AvroIdl.Proofs.Provenance
import AvroIdl.Proofs.ReadShape

/-!
# References of a compiled unit

What a unit is made of is fresh until it is resolved, so in a compiled unit a reference is bound to
a type of its name exactly if it stands inside no more than 256 other schemas. A reference that lies
deeper is neither bound nor reported, and its name need not be there.
-/
namespace AvroIdl

namespace Build

theorem Declared.fresh {s : Schema} (h : Declared s) : s.Fresh := by
  cases h with
  | record built => exact recordOf_gives _ _ _ trivial _ _ built
  | enum built => exact enumOf_yields _ _ _ built
  | fixed built => exact fixedOf_yields _ _ _ built
  | read parsed read member =>
    have htidy := Json.tidy_of_parse? parsed
    rcases read with read | read
    · exact (Document.readProtocol_yields true _ htidy _ read).1 _ member
    · exact (Document.ofSchema_yields true htidy _ read).1 _ member

theorem DeclaredMessage.fresh {m : Message} (h : DeclaredMessage m) : m.Fresh := by
  cases h with
  | message built => exact messageOf_gives _ _ _ trivial _ _ built
  | read parsed read member =>
    exact (Document.readProtocol_yields true _ (Json.tidy_of_parse? parsed) _ read).2 _ member

theorem DeclaredType.part {s : Schema} (h : DeclaredType s) : s.Part := by
  obtain ⟨c, node, w, w', built⟩ := h
  exact typeOf_gives c node w trivial s w' built

end Build

namespace Compilation

open Build

/-- The registered types, the types of messages and the main schema of a unit. -/
def Root.types (r : Root) : List Schema :=
  r.registry.unitTypes (Root.messages r.file) (Root.main? r.file)

theorem Root.content_resolved (registry : Registry) (file : IdlFile) (names : List Text) :
    let r := registry.resolveAll (Root.messages file) (Root.main? file)
    Root.messages (Root.resolved file r.messages r.main names) = r.messages ∧
      Root.main? (Root.resolved file r.messages r.main names) = r.main := by
  obtain ⟨content, _⟩ := file
  cases content <;>
    simp [Root.messages, Root.main?, Root.resolved, Registry.resolveAll]

/-- A finished unit has no undefined name within the levels and no problem with a default. -/
theorem finish_eq_ok {registry : Registry} {file : IdlFile} {unit : Root}
    (h : finish registry file = .ok unit) :
    let r := registry.resolveAll (Root.messages file) (Root.main? file)
    r.failure = none ∧ r.registry.validateDefaults r.messages = [] ∧
      unit = ⟨r.registry, Root.resolved file r.messages r.main r.registry.names⟩ := by
  unfold finish at h
  dsimp only at h ⊢
  split at h
  · cases h
  · next hfailure =>
    split at h
    · next hdefaults =>
      cases h
      exact ⟨hfailure, hdefaults, rfl⟩
    · cases h

theorem fresh_unitTypes {registry : Registry} {file : IdlFile} (hr : KeptTypes registry)
    (hf : KeptFile file) {s : Schema}
    (hs : s ∈ registry.unitTypes (Root.messages file) (Root.main? file)) : s.Fresh := by
  simp only [Registry.unitTypes, List.mem_append, List.mem_map, List.mem_flatMap,
    Option.mem_toList] at hs
  rcases hs with (⟨e, he, rfl⟩ | ⟨m, hm, hs⟩) | hs
  · exact (hr.declared e he).fresh
  · exact (hf.messages.declared m hm).fresh.types s hs
  · exact (hf.main s hs).part.fresh

/-- A reference of a compiled unit is bound to a registered type of its full name exactly if it
stands inside no more schemas than are looked at. -/
theorem binds_iff_depth_lt {tree : FileTree} {searchDirectories : List Path} {source : Text}
    {path : Path} {unit : Root}
    (h : (root tree searchDirectories source path).result = .ok unit) {s : Schema} {depth : Nat}
    {ref : Reference} (hs : s ∈ unit.types) (ho : (Schema.reference ref).Occurs depth s) :
    unit.registry.Binds ref ↔ depth < Schema.bindingLevels := by
  obtain ⟨registry, file, hr, hf, hfinish⟩ := root_eq_ok h
  obtain ⟨hfailure, -, rfl⟩ := finish_eq_ok hfinish
  obtain ⟨hmessages, hmain⟩ := Root.content_resolved registry file
    (registry.resolveAll (Root.messages file) (Root.main? file)).registry.names
  refine Registry.binds_resolveAll_iff hfailure ?_ ?_ ho
  · intro t ht depth' ref' ho'
    exact (fresh_unitTypes hr hf ht depth' _ ho').2
  · rw [Root.types, hmessages, hmain] at hs
    exact hs

/-- A record that refers to itself, and to a name that is not there inside 256 arrays. -/
def deepSource : Text :=
  ("record R \x7b R self; " : Text) ++ (List.replicate 256 ("array<" : Text)).flatten ++
    ("Missing" : Text) ++ List.replicate 256 0x3E ++ (" f; \x7d" : Text)

set_option maxRecDepth 100000 in
theorem deepSource_compiles :
    ∃ unit, (root {} [] deepSource ⟨"r.avdl"⟩).result = .ok unit ∧
      unit.registry.names = [("R" : Text)] ∧
      ∃ s ∈ unit.types, (∃ ref ∈ s.references Schema.bindingLevels, ref.full = "R") ∧
        ∃ ref ∈ s.references (Schema.bindingLevels + 1), ref.full = "Missing" := by
  have hrun : (root {} [] deepSource ⟨"r.avdl"⟩).result.toOption.any (fun unit =>
      unit.registry.names == [("R" : Text)] && unit.types.any fun s =>
        (s.references Schema.bindingLevels).any (·.full == ("R" : Text)) &&
          (s.references (Schema.bindingLevels + 1)).any (·.full == ("Missing" : Text))) = true := by
    decide +kernel
  obtain ⟨unit, hunit, hcheck⟩ := exists_ok_of_any hrun
  simp only [Bool.and_eq_true, List.any_eq_true, beq_iff_eq] at hcheck
  exact ⟨unit, hunit, hcheck⟩

/-- A unit may be compiled although a reference in it is bound to nothing. -/
theorem exists_dangling_reference :
    ∃ unit, (root {} [] deepSource ⟨"r.avdl"⟩).result = .ok unit ∧
      ∃ s ∈ unit.types, ∃ depth ref, (Schema.reference ref).Occurs depth s ∧
        ¬unit.registry.Binds ref := by
  obtain ⟨unit, hunit, hnames, s, hs, -, ref, href, hfull⟩ := deepSource_compiles
  obtain ⟨depth, -, ho⟩ := Schema.mem_references_iff.mp href
  refine ⟨unit, hunit, s, hs, depth, ref, ho, ?_⟩
  rintro ⟨i, e, -, he, heq⟩
  have hmem : e.schema.full ∈ unit.registry.names :=
    List.mem_map.mpr ⟨e, List.mem_of_getElem? he, rfl⟩
  rw [hnames, heq, hfull] at hmem
  exact absurd hmem (by decide)

/-- The reference of that unit that does not lie too deep is bound. -/
theorem exists_bound_reference :
    ∃ unit, (root {} [] deepSource ⟨"r.avdl"⟩).result = .ok unit ∧
      ∃ s ∈ unit.types, ∃ depth ref, (Schema.reference ref).Occurs depth s ∧ ref.full = "R" ∧
        unit.registry.Binds ref := by
  obtain ⟨unit, hunit, -, s, hs, ⟨ref, href, hfull⟩, -⟩ := deepSource_compiles
  obtain ⟨depth, hd, ho⟩ := Schema.mem_references_iff.mp href
  exact ⟨unit, hunit, s, hs, depth, ref, ho, hfull, (binds_iff_depth_lt hunit hs ho).mpr hd⟩

end Compilation

end AvroIdl
