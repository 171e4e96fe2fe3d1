import AvroIdl.Proofs.ImportClosure

/-!
# Messages of imported files

A protocol passes on the messages of what it imports, and a list of types drops them. Since a file
is taken in once, where it is met first, it depends on the order of imports which of them decides.
Where no file with messages is met in both ways, the order does not matter: a protocol has the
messages of all files that protocols lead to.
-/
namespace AvroIdl

open Import (Target)

namespace Declaration

@[simp]
theorem messageName?_message (d : MessageDecl) : messageName? (.message d) = some d.name.text := rfl

theorem messageName?_of_typeName? {c : Build.Context} {d : Declaration} {name : Text}
    (h : d.typeName? c = some name) : d.messageName? = none := by
  cases d with
  | message d => cases h
  | _ => rfl

end Declaration

namespace Project

open Build

/-- The file at a path is a source with a protocol. -/
def IsProtocol (x : Project) (p : Path) : Prop := ∃ u ∈ x.unit? p, u.isProtocol = true

instance (x : Project) (p : Path) : Decidable (x.IsProtocol p) :=
  inferInstanceAs (Decidable (∃ u ∈ x.unit? p, u.isProtocol = true))

theorem isProtocol_iff_of_unit {x : Project} {p : Path} {u : SourceUnit} (h : x.unit? p = some u) :
    x.IsProtocol p ↔ u.isProtocol = true := by
  simp [IsProtocol, h]

/-- What protocols lead to from the source. -/
inductive Delivered (x : Project) : Target → Prop
  | root : Delivered x ⟨.idl, x.root⟩
  | step {p : Path} {t : Target} (source : Delivered x ⟨.idl, p⟩) (protocol : x.IsProtocol p)
    (declared : t ∈ x.imports p) : Delivered x t

/-- What is reached through a source that drops its messages. -/
inductive Withheld (x : Project) : Target → Prop
  | dropped {p : Path} {t : Target} (source : x.Reaches ⟨.idl, p⟩) (other : ¬x.IsProtocol p)
    (declared : t ∈ x.imports p) : Withheld x t
  | inside {p : Path} {t : Target} (source : Withheld x ⟨.idl, p⟩) (declared : t ∈ x.imports p) :
    Withheld x t

/-- A file with messages to which protocols lead is not reached through a source that drops them,
and a protocol document of that kind is not imported as a schema too. -/
def Steady (x : Project) : Prop :=
  ∀ t, x.Delivered t → x.messageNames t ≠ [] →
    ¬x.Withheld t ∧ (t.kind = .protocol → ¬x.Reaches ⟨.schema, t.path⟩)

variable {x : Project} {p : Path} {c : Context} {inProtocol : Bool} {ds : List Declaration}
  {session : Session} {loads : List Target} {gain : Stock}

theorem Delivered.reaches {t : Target} (h : x.Delivered t) : x.Reaches t := by
  induction h with
  | root => exact .root
  | step _ _ declared ih => exact .step ih declared

theorem Delivered.isProtocol_root {t : Target} (h : x.Delivered t) (hne : t ≠ ⟨.idl, x.root⟩) :
    x.IsProtocol x.root := by
  induction h with
  | root => exact absurd rfl hne
  | @step p t source protocol _ ih =>
    by_cases hp : p = x.root
    · exact hp ▸ protocol
    · exact ih fun heq => hp (congrArg Target.path heq)

theorem messageNames_eq_nil_of_schema {t : Target} (h : t.kind = .schema) :
    x.messageNames t = [] := by
  cases hdocument : Import.document? x.tree t with
  | none => simp [messageNames, h, hdocument]
  | some document =>
    rw [messageNames_of_document (by simp [h]) hdocument]
    unfold Import.document? at hdocument
    simp only [Option.bind_eq_some_iff, h, reduceCtorEq, if_false] at hdocument
    obtain ⟨contents, -, json, -, hread⟩ := hdocument
    have hmessages : Yields (Document.ofSchema true json) fun document => document.messages = [] :=
      .bind (.any _) fun _ _ => .ok rfl
    rw [hmessages document (eq_ok_of_toOption hread), List.map_nil]

/-- The declared messages of a source are gained. -/
theorem Gathers.declared_messages (h : x.Gathers p c inProtocol ds session loads gain) :
    ds.filterMap Declaration.messageName? ⊆ gain.messages := by
  induction h with
  | nil => simp
  | type named _ ih =>
    rw [List.filterMap_cons_none (Declaration.messageName?_of_typeName? named)]
    exact ih
  | message _ ih =>
    rw [List.filterMap_cons_some (Declaration.messageName?_message _)]
    exact List.cons_subset_cons _ ih
  | known _ _ _ _ ih => exact ih
  | document _ _ _ _ _ ih => exact List.subset_append_of_subset_right _ ih
  | source _ _ _ _ _ _ _ _ ih => exact List.subset_append_of_subset_right _ ih

/-- Messages that are gained are declared, or protocols lead to them. -/
theorem Gathers.delivered_of_mem_messages (h : x.Gathers p c inProtocol ds session loads gain)
    (hp : inProtocol = true → x.Delivered ⟨.idl, p⟩ ∧ x.IsProtocol p)
    (hds : x.targets p ds ⊆ x.imports p) {m : Text} (hm : m ∈ gain.messages) :
    m ∈ ds.filterMap Declaration.messageName? ∨ ∃ t, x.Delivered t ∧ m ∈ x.messageNames t := by
  induction h with
  | nil => cases hm
  | type named _ ih =>
    rw [List.filterMap_cons_none (Declaration.messageName?_of_typeName? named)]
    rw [targets_cons_of_typeName? named] at hds
    exact ih hp hds hm
  | message _ ih =>
    rw [List.filterMap_cons_some (Declaration.messageName?_message _)]
    rcases List.mem_cons.mp hm with rfl | hm
    · exact .inl List.mem_cons_self
    · exact (ih hp hds hm).imp_left (List.mem_cons_of_mem _)
  | known leads _ _ _ ih =>
    exact ih hp ((targets_cons_subset_iff leads).mp hds).2 hm
  | document leads kind _ content _ ih =>
    obtain ⟨hfirst, hrest⟩ := (targets_cons_subset_iff leads).mp hds
    rcases List.mem_append.mp hm with hm | hm
    · obtain ⟨hprotocol, hm⟩ := mem_carried.mp hm
      refine .inr ⟨_, .step (hp hprotocol).1 (hp hprotocol).2 hfirst, ?_⟩
      rwa [messageNames_of_document kind content]
    · exact ih hp hrest hm
  | @source p c c' inProtocol session d t u ds inside loads inner gain leads kind admits unit
      context within rest ihin ih =>
    obtain ⟨hfirst, hrest⟩ := (targets_cons_subset_iff leads).mp hds
    rcases List.mem_append.mp hm with hm | hm
    · obtain ⟨hprotocol, hm⟩ := mem_carried.mp hm
      obtain ⟨hu, hm⟩ := mem_carried.mp hm
      have hdelivered : x.Delivered t := .step (hp hprotocol).1 (hp hprotocol).2 hfirst
      have hsource : x.Delivered ⟨.idl, t.path⟩ := by rwa [← kind]
      have hinside := ihin (fun _ => ⟨hsource, u, unit, hu⟩) (targets_subset_imports unit) hm
      refine .inr (hinside.elim (fun hm => ⟨t, hdelivered, ?_⟩) id)
      rwa [messageNames_of_unit kind unit, if_pos hu]
    · exact ih hp hrest hm

/-- What is imported by a source that is withheld or drops messages is withheld. -/
theorem withheld_of_mem_imports {t : Target}
    (h : x.Withheld ⟨.idl, p⟩ ∨ x.Reaches ⟨.idl, p⟩ ∧ ¬x.IsProtocol p) (ht : t ∈ x.imports p) :
    x.Withheld t :=
  h.elim (fun h => .inside h ht) fun h => .dropped h.1 h.2 ht

/-- All that such a source loads is withheld. -/
theorem Gathers.withheld (h : x.Gathers p c inProtocol ds session loads gain)
    (hp : x.Withheld ⟨.idl, p⟩ ∨ x.Reaches ⟨.idl, p⟩ ∧ ¬x.IsProtocol p)
    (hds : x.targets p ds ⊆ x.imports p) : ∀ t ∈ loads, x.Withheld t := by
  induction h with
  | nil => simp
  | type named _ ih => exact ih hp (targets_cons_of_typeName? named _ ▸ hds)
  | message _ ih => exact ih hp hds
  | known leads _ _ _ ih =>
    exact ih hp ((targets_cons_subset_iff leads).mp hds).2
  | document leads _ _ _ _ ih =>
    obtain ⟨hfirst, hrest⟩ := (targets_cons_subset_iff leads).mp hds
    exact List.forall_mem_cons.mpr ⟨withheld_of_mem_imports hp hfirst, ih hp hrest⟩
  | @source p c c' inProtocol session d t u ds inside loads inner gain leads kind admits unit
      context within rest ihin ih =>
    obtain ⟨hfirst, hrest⟩ := (targets_cons_subset_iff leads).mp hds
    have hwithheld : x.Withheld t := withheld_of_mem_imports hp hfirst
    have hsource : x.Withheld ⟨.idl, t.path⟩ := by rwa [← kind]
    have hinside := ihin (.inl hsource) (targets_subset_imports unit)
    intro t' ht'
    rcases List.mem_append.mp ht' with h' | h'
    · exact List.forall_mem_cons.mpr ⟨hwithheld, hinside⟩ t' h'
    · exact ih hp hrest t' h'

/-- A protocol gains the messages of all that it loads and that is not withheld. -/
theorem Gathers.messages_of_loaded (h : x.Gathers p c inProtocol ds session loads gain)
    (hp : x.Reaches ⟨.idl, p⟩) (hprotocol : x.IsProtocol p ↔ inProtocol = true)
    (hds : x.targets p ds ⊆ x.imports p) :
    ∀ t ∈ loads, ¬x.Withheld t → x.messageNames t ⊆ gain.messages := by
  induction h with
  | nil => simp
  | type named _ ih => exact ih hp hprotocol (targets_cons_of_typeName? named _ ▸ hds)
  | message _ ih =>
    exact fun t ht hfree => List.subset_cons_of_subset _ (ih hp hprotocol hds t ht hfree)
  | known leads _ _ _ ih =>
    exact ih hp hprotocol ((targets_cons_subset_iff leads).mp hds).2
  | @document p c inProtocol session d t document ds loads gain leads kind _ content _ ih =>
    obtain ⟨hfirst, hrest⟩ := (targets_cons_subset_iff leads).mp hds
    refine List.forall_mem_cons.mpr ⟨fun hfree m hm => ?_, fun t' ht' hfree => ?_⟩
    · rw [messageNames_of_document kind content] at hm
      refine List.mem_append_left _ (mem_carried.mpr ⟨hprotocol.mp ?_, hm⟩)
      by_contra hother
      exact hfree (.dropped hp hother hfirst)
    · exact List.subset_append_of_subset_right _ (ih hp hprotocol hrest t' ht' hfree)
  | @source p c c' inProtocol session d t u ds inside loads inner gain leads kind admits unit
      context within rest ihin ih =>
    obtain ⟨hfirst, hrest⟩ := (targets_cons_subset_iff leads).mp hds
    have hsource : x.Reaches ⟨.idl, t.path⟩ := kind ▸ .step hp hfirst
    have hinside := targets_subset_imports unit
    have hu := isProtocol_iff_of_unit unit
    -- Messages from inside arrive here, unless one of the two sources on the way drops them.
    have harrive {m : Text} (hfree : ¬x.Withheld t) (hinner : u.isProtocol = true)
        (hm : m ∈ inner.messages) :
        m ∈ carried inProtocol (carried u.isProtocol inner.messages) := by
      refine mem_carried.mpr ⟨hprotocol.mp ?_, mem_carried.mpr ⟨hinner, hm⟩⟩
      by_contra hother
      exact hfree (.dropped hp hother hfirst)
    intro t' ht' hfree m hm
    rcases List.mem_append.mp ht' with h' | h'
    · refine List.mem_append_left _ ?_
      rcases List.mem_cons.mp h' with rfl | h'
      · rw [messageNames_of_unit kind unit] at hm
        split at hm
        · next hinner => exact harrive hfree hinner (within.declared_messages hm)
        · cases hm
      · have hinner : u.isProtocol = true := by
          by_contra hother
          exact hfree (within.withheld (.inr ⟨hsource, mt hu.mp hother⟩) hinside t' h')
        have hfirst : ¬x.Withheld t := fun hwithheld =>
          hfree (within.withheld (.inl (kind ▸ hwithheld)) hinside t' h')
        exact harrive hfirst hinner (ihin hsource hu hinside t' h' hfree hm)
    · exact List.mem_append_right _ (ih hp hprotocol hrest t' h' hfree hm)

/-- What is loaded is a source or a document, and never the source of the project. -/
theorem Gathers.exists_content (ht : x.tree.Placed)
    (h : x.Gathers p c inProtocol ds session loads gain) (hroot : x.root ∈ session.stack) :
    ∀ t ∈ loads, t.path ≠ x.root ∧
      ((t.kind = .idl ∧ ∃ u, x.unit? t.path = some u) ∨
        t.kind ≠ .idl ∧ ∃ document, Import.document? x.tree t = some document) := by
  induction h with
  | nil => simp
  | type _ _ ih => exact ih hroot
  | message _ ih => exact ih hroot
  | known _ _ _ _ ih => exact ih hroot
  | document leads kind admits content _ ih =>
    have hne := ne_root_of_closed (plain_of_target? ht leads) hroot admits.closed
    exact List.forall_mem_cons.mpr ⟨⟨hne, .inr ⟨kind, _, content⟩⟩, ih (by simpa using hroot)⟩
  | source leads kind admits unit _ within _ ihin ih =>
    have hne := ne_root_of_closed (plain_of_target? ht leads) hroot admits.closed
    have hinside := ihin (mem_stack_enter hroot _)
    have hrest := ih (within.stack_leave ▸ hroot)
    intro t' ht'
    rcases List.mem_append.mp ht' with h' | h'
    · exact List.forall_mem_cons.mpr ⟨⟨hne, .inl ⟨kind, _, unit⟩⟩, hinside⟩ t' h'
    · exact hrest t' h'

theorem exists_document_of_mem_messageNames {t : Target} {m : Text} (hkind : t.kind ≠ .idl)
    (h : m ∈ x.messageNames t) : ∃ document, Import.document? x.tree t = some document := by
  unfold messageNames at h
  rw [if_neg hkind] at h
  split at h
  · exact ⟨_, ‹_›⟩
  · cases h

theorem exists_unit_of_mem_messageNames {t : Target} {m : Text} (hkind : t.kind = .idl)
    (h : m ∈ x.messageNames t) : ∃ u, x.unit? t.path = some u := by
  unfold messageNames at h
  rw [if_pos hkind] at h
  split at h
  · exact ⟨_, ‹_›⟩
  · cases h

/-- The file that was loaded from a path is the one with messages, unless a protocol was loaded as a
schema. -/
theorem eq_of_loaded {t t' : Target} {m : Text} (hm : m ∈ x.messageNames t)
    (hpath : t'.path = t.path) (hroot : t'.path ≠ x.root)
    (hcontent : (t'.kind = .idl ∧ ∃ u, x.unit? t'.path = some u) ∨
      t'.kind ≠ .idl ∧ ∃ document, Import.document? x.tree t' = some document)
    (hschema : t.kind = .protocol → t' ≠ ⟨.schema, t.path⟩) : t' = t := by
  obtain ⟨kind', path'⟩ := t'
  obtain ⟨kind, path⟩ := t
  obtain rfl : path' = path := hpath
  rcases hcontent with ⟨hkind', u, hu⟩ | ⟨hkind', document, hdocument⟩
  · obtain rfl : kind' = .idl := hkind'
    cases kind with
    | idl => rfl
    | _ =>
      obtain ⟨document, hdocument⟩ := exists_document_of_mem_messageNames (by simp) hm
      have hnone : x.unit? path' = none := unit?_eq_none_of_document (by exact hroot) hdocument
      exact absurd (hu.symm.trans hnone) (by simp)
  · have hnone := unit?_eq_none_of_document hroot hdocument
    cases kind with
    | idl =>
      obtain ⟨u, hu⟩ := exists_unit_of_mem_messageNames rfl hm
      exact absurd (hu.symm.trans hnone) (by simp)
    | schema =>
      rw [messageNames_eq_nil_of_schema rfl] at hm
      cases hm
    | protocol =>
      cases kind' with
      | idl => exact absurd rfl hkind'
      | protocol => rfl
      | schema => exact absurd rfl (hschema rfl)

section Compiled

variable {unit : Compilation.Root}

def messagesOf (unit : Compilation.Root) : List Text :=
  (Compilation.Root.messages unit.file).map (·.name)

/-- The messages of a unit are those of the files to which protocols lead. -/
theorem mem_messages_iff (ht : x.tree.Placed) (hx : x.Steady)
    (h : (Compilation.root x.tree x.searchDirectories x.source x.path).result = .ok unit)
    (m : Text) : m ∈ messagesOf unit ↔ ∃ t, x.Delivered t ∧ m ∈ x.messageNames t := by
  obtain ⟨u, c, loads, gain, hu, -, hwalk, -, hmessages⟩ := exists_walk_of_root ht h
  have hprotocol := isProtocol_iff_of_unit hu
  have hds := targets_subset_imports hu
  have hopen : x.root ∈ x.session.stack := by simp [stack_session]
  have hown : x.messageNames ⟨.idl, x.root⟩ =
      if u.isProtocol then u.declarations.filterMap Declaration.messageName? else [] :=
    messageNames_of_unit rfl hu
  rw [messagesOf, hmessages, mem_carried]
  constructor
  · rintro ⟨hsource, hm⟩
    rcases hwalk.delivered_of_mem_messages
      (fun _ => ⟨.root, hprotocol.mpr hsource⟩) hds hm with hm | hm
    · exact ⟨_, .root, by rwa [hown, if_pos hsource]⟩
    · exact hm
  · rintro ⟨t, hdelivered, hm⟩
    obtain ⟨hfree, hschema⟩ := hx t hdelivered (List.ne_nil_of_mem hm)
    rcases hwalk.loaded_of_reaches ht hu hdelivered.reaches with rfl | ⟨t', hload, hpath⟩
    · rw [hown] at hm
      split at hm
      · next hsource => exact ⟨hsource, hwalk.declared_messages hm⟩
      · cases hm
    · obtain ⟨hne, hcontent⟩ := hwalk.exists_content ht hopen t' hload
      obtain rfl : t' = t := eq_of_loaded hm hpath hne hcontent fun hkind heq =>
        hschema hkind (heq ▸ hwalk.reaches_of_root hu t' hload)
      have hsource := hprotocol.mp (hdelivered.isProtocol_root fun heq => hne (heq ▸ rfl))
      exact ⟨hsource, hwalk.messages_of_loaded .root hprotocol hds t' hload hfree hm⟩

end Compiled

end Project

end AvroIdl
