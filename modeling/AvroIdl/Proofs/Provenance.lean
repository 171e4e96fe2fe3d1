import AvroIdl.Proofs.Supply

/-!
# Where the content of a unit comes from

However a unit is put together from a source and its imports, each of its types was given by a
declaration or by a document, and so was each of its messages; the registry has accepted the types
one by one. `root_eq_ok` says so for every source, every file tree and every depth of imports, and
the properties of compiled units rest on it.
-/
namespace AvroIdl

namespace Build

/-- A declaration or a document gives the type. -/
inductive Declared : Schema → Prop
  | record {c : Context} {d : RecordDecl} {w w' : List Diagnostic} {s : Schema}
      (built : (recordOf c d).run w = (.ok s, w')) : Declared s
  | enum {c : Context} {d : EnumDecl} {s : Schema} (built : enumOf c d = .ok s) : Declared s
  | fixed {c : Context} {d : FixedDecl} {s : Schema} (built : fixedOf c d = .ok s) : Declared s
  | read {contents : Text} {j : Json} {document : Document} {s : Schema}
      (parsed : Json.parse? contents = some j)
      (read : Document.ofProtocol true j = .ok document ∨ Document.ofSchema true j = .ok document)
      (member : s ∈ document.types) : Declared s

/-- A declaration or a document gives the message. -/
inductive DeclaredMessage : Message → Prop
  | message {c : Context} {d : MessageDecl} {w w' : List Diagnostic} {m : Message}
      (built : (messageOf c d).run w = (.ok m, w')) : DeclaredMessage m
  | read {contents : Text} {j : Json} {document : Document} {m : Message}
      (parsed : Json.parse? contents = some j)
      (read : Document.ofProtocol true j = .ok document) (member : m ∈ document.messages) :
      DeclaredMessage m

/-- Types that were given by declarations and documents and registered one by one. -/
structure KeptTypes (r : Registry) : Prop where
  lawful : r.Lawful
  declared : ∀ e ∈ r.entries, Declared e.schema

/-- Messages that were given by declarations and documents, no two of one name. -/
structure KeptMessages (messages : List Message) : Prop where
  declared : ∀ m ∈ messages, DeclaredMessage m
  distinct : (messages.map (·.name)).Nodup

/-- The messages and the main schema of a file come from its declarations and imports, and its
namespace is no property. -/
structure KeptFile (file : IdlFile) : Prop where
  messages : KeptMessages (Compilation.Root.messages file)
  main : ∀ s, Compilation.Root.main? file = some s → DeclaredType s
  properties : ∀ p, file.content = .protocol p → ("namespace" : Text) ∉ p.properties.keys

/-- The content of a document was read from a text. -/
theorem exists_read_of_document? {tree : FileTree} {t : Import.Target} {document : Document}
    (h : Import.document? tree t = some document) :
    ∃ contents j, Json.parse? contents = some j ∧
      (Document.ofProtocol true j = .ok document ∨ Document.ofSchema true j = .ok document) := by
  obtain ⟨contents, -, h⟩ := Option.bind_eq_some_iff.mp h
  obtain ⟨j, hparsed, h⟩ := Option.bind_eq_some_iff.mp h
  have hread := eq_ok_of_toOption h
  split at hread
  · exact ⟨contents, j, hparsed, .inl hread⟩
  · exact ⟨contents, j, hparsed, .inr hread⟩

/-- A schema document has no messages. -/
theorem messages_of_ofSchema {isClean : Bool} {j : Json} {document : Document}
    (h : Document.ofSchema isClean j = .ok document) : document.messages = [] := by
  unfold Document.ofSchema at h
  cases hr : Document.readSchema isClean Document.fullLevels none j with
  | error ps => rw [hr] at h; cases h
  | ok read =>
    rw [hr] at h
    cases h
    rfl

theorem supply_declared (tree : FileTree) : Supply tree Declared DeclaredMessage where
  record _ _ := fun _ _ _ _ h => .record h
  enum _ _ := fun _ h => .enum h
  fixed _ _ := fun _ h => .fixed h
  message _ _ _ _ := fun _ _ _ _ h => .message h
  types h s hs := by
    obtain ⟨_, _, hparsed, hread⟩ := exists_read_of_document? h
    exact .read hparsed hread hs
  messages h m hm := by
    obtain ⟨_, _, hparsed, hread | hread⟩ := exists_read_of_document? h
    · exact .read hparsed hread hm
    · rw [messages_of_ofSchema hread] at hm
      cases hm

end Build

namespace Compilation

open Build

/-- A compiled unit is what its build gives, resolved and checked. -/
theorem root_eq_ok {tree : FileTree} {searchDirectories : List Path} {source : Text} {path : Path}
    {unit : Root} (h : (root tree searchDirectories source path).result = .ok unit) :
    ∃ registry file, KeptTypes registry ∧ KeptFile file ∧ finish registry file = .ok unit := by
  obtain ⟨registry, file, hr, hf, hfinish⟩ := exists_built_of_root (supply_declared tree) h
  exact ⟨registry, file, ⟨hr.lawful, hr.all⟩,
    ⟨⟨hf.messages.all, hf.messages.distinct⟩, hf.main, hf.properties⟩, hfinish⟩

end Compilation

end AvroIdl
