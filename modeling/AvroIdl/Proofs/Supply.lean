import AvroIdl.Proofs.BuiltShape
import AvroIdl.Proofs.ImportGraph
import AvroIdl.Proofs.Registration

/-!
# What a unit is made of

A build takes types and messages from the declarations of sources and from documents, and from
nowhere else. What holds of all of these therefore holds of all types and messages of a unit, for
every source, every file tree and every depth of imports; besides, the registry has accepted the
types one by one, and no two messages have one name.
-/
namespace AvroIdl

namespace Build

/-- What holds of every type that a declaration or a document can give, and of every message. -/
structure Supply (tree : FileTree) (P : Schema → Prop) (Q : Message → Prop) : Prop where
  record : ∀ c d, (recordOf c d).Gives P
  enum : ∀ c d, Yields (enumOf c d) P
  fixed : ∀ c d, Yields (fixedOf c d) P
  message : ∀ {source file : Text} {u : SourceUnit}, Compilation.treeOf source file = .ok u →
    ∀ d, .message d ∈ u.declarations → ∀ c, (messageOf c d).Gives Q
  types : ∀ {t : Import.Target} {document : Document}, Import.document? tree t = some document →
    ∀ s ∈ document.types, P s
  messages : ∀ {t : Import.Target} {document : Document}, Import.document? tree t = some document →
    ∀ m ∈ document.messages, Q m

/-- Types with a property that were registered one by one. -/
structure HasTypes (P : Schema → Prop) (r : Registry) : Prop where
  lawful : r.Lawful
  all : ∀ e ∈ r.entries, P e.schema

/-- Messages with a property, no two of one name. -/
structure HasMessages (Q : Message → Prop) (messages : List Message) : Prop where
  all : ∀ m ∈ messages, Q m
  distinct : (messages.map (·.name)).Nodup

/-- What holds of the state of a build at all times. -/
structure State.Has (P : Schema → Prop) (Q : Message → Prop) (s : State) : Prop where
  types : HasTypes P s.registry
  messages : HasMessages Q s.messages

/-- A type of a source denotes the schema. -/
def DeclaredType (s : Schema) : Prop :=
  ∃ c node w w', (typeOf c node).run w = (.ok s, w')

/-- The messages and the main schema of a file come from its declarations and imports, and its
namespace is no property. -/
structure FileHas (Q : Message → Prop) (file : IdlFile) : Prop where
  messages : HasMessages Q (Compilation.Root.messages file)
  main : ∀ s, Compilation.Root.main? file = some s → DeclaredType s
  properties : ∀ p, file.content = .protocol p → ("namespace" : Text) ∉ p.properties.keys

section Fields

variable {R : Field → Prop}
  (hR : ∀ c owner type typeDoc d, (fieldOf c owner type typeDoc d).Gives R)

include hR

theorem declaratorFields_gives_all (c : Context) (owner : Text) (f : FieldDecl) (seen : List Text)
    (ds : List Declarator) :
    (declaratorFields c owner f seen ds).Gives fun fields => ∀ x ∈ fields, R x := by
  induction ds generalizing seen with
  | nil => exact .pure (by simp)
  | cons d ds ih =>
    refine .bind (hR c owner f.type f.doc d) fun field hfield => ?_
    split
    · exact .fail
    · exact .bind (ih _) fun rest hrest => .pure (List.forall_mem_cons.mpr ⟨hfield, hrest⟩)

/-- What holds of every field that can be declared holds of the fields of a record. -/
theorem recordFields_gives_all (c : Context) (owner : Text) (seen : List Text)
    (fs : List FieldDecl) :
    (recordFields c owner seen fs).Gives fun fields => ∀ x ∈ fields, R x := by
  induction fs generalizing seen with
  | nil => exact .pure (by simp)
  | cons f fs ih =>
    refine .bind (declaratorFields_gives_all hR c owner f seen f.declarators)
      fun fields hfields => ?_
    exact .bind (ih _) fun rest hrest => .pure (List.forall_mem_append.mpr ⟨hfields, hrest⟩)

theorem parametersOf_gives_all (c : Context) (owner : Text) (seen : List Text)
    (ps : List Parameter) :
    (parametersOf c owner seen ps).Gives fun fields => ∀ x ∈ fields, R x := by
  induction ps generalizing seen with
  | nil => exact .pure (by simp)
  | cons p ps ih =>
    refine .bind (hR c owner p.type none p.declarator) fun field hfield => ?_
    split
    · exact .fail
    · exact .bind (ih _) fun rest hrest => .pure (List.forall_mem_cons.mpr ⟨hfield, hrest⟩)

end Fields

section Content

variable {P : Schema → Prop} {Q : Message → Prop}

theorem hasTypes_empty (file : Text) : HasTypes P { file := file } :=
  ⟨Registry.lawful_empty file, by simp⟩

theorem hasMessages_nil : HasMessages Q [] := ⟨by simp, by simp⟩

theorem HasTypes.register {r r' : Registry} {s : Schema} {origin : Text} (hr : HasTypes P r)
    (hs : P s) (h : r.register s origin = .ok r') : HasTypes P r' := by
  obtain ⟨file, hi⟩ := Registry.register_eq_ok h
  refine ⟨hr.lawful.insert hi, ?_⟩
  obtain ⟨-, -, -, rfl⟩ := Registry.insert_eq_ok hi
  intro e he
  rcases List.mem_append.mp he with he | he
  · exact hr.all e he
  · rw [List.mem_singleton.mp he]
    exact hs

theorem HasMessages.sublist {ms ms' : List Message} (h : HasMessages Q ms)
    (hs : ms'.Sublist ms) : HasMessages Q ms' :=
  ⟨fun m hm => h.all m (hs.subset hm), (hs.map _).nodup h.distinct⟩

theorem HasMessages.append {ms : List Message} {m : Message} (h : HasMessages Q ms)
    (hm : Q m) (hnew : (ms.any fun known => known.name == m.name) = false) :
    HasMessages Q (ms ++ [m]) := by
  refine ⟨?_, ?_⟩
  · intro x hx
    rcases List.mem_append.mp hx with hx | hx
    · exact h.all x hx
    · rw [List.mem_singleton.mp hx]
      exact hm
  · rw [List.map_append, List.nodup_append]
    refine ⟨h.distinct, by simp, ?_⟩
    intro a ha b hb hab
    obtain ⟨known, hk, rfl⟩ := List.mem_map.mp ha
    have hne := List.any_eq_false.mp hnew known hk
    simp only [List.map_cons, List.map_nil, List.mem_singleton] at hb
    exact hne (by simpa using hab.trans hb)

theorem HasTypes.addTypes {r : Registry} {es : List Registry.Entry} (hr : HasTypes P r)
    (hes : ∀ e ∈ es, P e.schema) : HasTypes P (Import.addTypes r es).1 := by
  induction es generalizing r with
  | nil => exact hr
  | cons e es ih =>
    have hone : HasTypes P (Import.addType r e).1 := by
      unfold Import.addType
      split
      · exact hr
      · split
        · next registry hreg => exact hr.register (hes e (by simp)) hreg
        · exact hr
    exact ih hone fun x hx => hes x (List.mem_cons_of_mem _ hx)

theorem HasMessages.addMessages {file : Text} {path : Path} {ms imported : List Message}
    (hms : HasMessages Q ms) (h : ∀ m ∈ imported, Q m) :
    HasMessages Q (Import.addMessages file path ms imported).1 := by
  induction imported generalizing ms with
  | nil => exact hms
  | cons m imported ih =>
    have hrest : ∀ x ∈ imported, Q x := fun x hx => h x (List.mem_cons_of_mem _ hx)
    rw [Import.addMessages]
    split
    · exact ih hms hrest
    · next hnew => exact ih (hms.append (h m (by simp)) (by simpa using hnew)) hrest

end Content

section Run

variable {α : Type}

theorem get_bind_run (f : State → Assembly α) (s : State) :
    (get >>= f).run s = (f s).run s := rfl

/-- Reporting changes nothing but the warnings. -/
theorem reported_run (r : Report α) (s : State) :
    (reported r).run s = ((r.run s.warnings).1, { s with warnings := (r.run s.warnings).2 }) := by
  unfold reported
  rw [get_bind_run]
  rcases r.run s.warnings with ⟨result, warnings⟩
  cases result <;> rfl

end Run

/-- The computation leaves the properties as they are. -/
abbrev Preserves {α : Type} (P : Schema → Prop) (Q : Message → Prop) (x : Assembly α) : Prop :=
  Ensures (State.Has P Q) x fun _ s => s.Has P Q

/-- Whatever is loaded without a failure has the properties. -/
def Loader.Supplies (P : Schema → Prop) (Q : Message → Prop) (load : Loader) : Prop :=
  ∀ path session, (load path session).failure = none → (load path session).state.Has P Q

/-- Documents and sources that are imported have the properties. -/
structure Imports.Supply (P : Schema → Prop) (Q : Message → Prop) (i : Imports) : Prop where
  supply : Build.Supply i.tree P Q
  loader : ∀ load, i.loader = some load → load.Supplies P Q

section Preserves

variable {P : Schema → Prop} {Q : Message → Prop} {i : Imports}

theorem reported_ensures {α : Type} {r : Report α} {R : α → Prop} (h : r.Gives R) :
    Ensures (State.Has P Q) (reported r) fun a s => R a ∧ s.Has P Q := by
  intro s hs a s' he
  rw [reported_run] at he
  obtain ⟨hr, rfl⟩ := Prod.mk.inj he
  exact ⟨h s.warnings trivial a _ (Prod.ext hr rfl), hs.types, hs.messages⟩

theorem preserves_stopImport {α : Type} (i : Imports) (d : ImportDecl) (p : Import.Problem) :
    Preserves P Q (stopImport i d p : Assembly α) :=
  Ensures.throw

theorem preserves_reported {α : Type} (r : Report α) : Preserves P Q (reported r) :=
  (reported_ensures (.any r)).mono (fun _ h => h) fun _ _ h => h.2

theorem preserves_registerNamed {file : Text} {schema : Schema} (h : P schema) :
    Preserves P Q (registerNamed file schema) := by
  refine Ensures.bind Ensures.get fun s => ?_
  rintro s' ⟨rfl, hs⟩
  split
  · next registry hr =>
    intro a t he
    cases he
    exact ⟨hs.types.register h hr, hs.messages⟩
  · intro a t he
    cases he

theorem preserves_mergeImport {d : ImportDecl} {path : Path} {types : List Registry.Entry}
    {messages : List Message} (ht : ∀ e ∈ types, P e.schema) (hm : ∀ m ∈ messages, Q m) :
    Preserves P Q (mergeImport i d path types messages) := by
  refine Ensures.bind Ensures.get fun s => ?_
  refine Ensures.bind
    (Ensures.set fun s' hs => ?_ : Ensures _ _ fun _ t => State.Has P Q t) fun _ => ?_
  · obtain ⟨rfl, hs⟩ := hs
    exact ⟨hs.types.addTypes ht, hs.messages.addMessages hm⟩
  · split
    · exact preserves_stopImport i d _
    · exact Ensures.pure fun _ h => h

theorem preserves_importDocument (hi : Supply i.tree P Q) (d : ImportDecl) (path : Path) :
    Preserves P Q (importDocument i d path) := by
  rcases importDocument_eq i d path with ⟨document, hcontent, heq⟩ | ⟨p, -, heq⟩
  · rw [heq]
    refine preserves_mergeImport ?_ (hi.messages hcontent)
    intro e he
    obtain ⟨s, hs, rfl⟩ := List.mem_map.mp he
    exact hi.types hcontent s hs
  · rw [heq]
    exact preserves_stopImport i d p

theorem preserves_importSource (hi : i.Supply P Q) (d : ImportDecl) (path : Path) :
    Preserves P Q (importSource i d path) := by
  unfold importSource
  split
  · exact preserves_stopImport i d _
  · next load hload =>
    refine Ensures.bind Ensures.get fun s => ?_
    dsimp only
    refine Ensures.bind
      (Ensures.set fun s' hs => ?_ : Ensures _ _ fun _ t => State.Has P Q t) fun _ => ?_
    · obtain ⟨rfl, hs⟩ := hs
      exact ⟨hs.types, hs.messages⟩
    · split
      · exact Ensures.throw
      · next hnone =>
        have hloaded := hi.loader load hload path _ hnone
        exact preserves_mergeImport hloaded.types.all hloaded.messages.all

theorem preserves_importFile (hi : i.Supply P Q) (d : ImportDecl) (location : Text) :
    Preserves P Q (importFile i d location) := by
  have hstop : ∀ (s : State) (p : Import.Problem), Ensures (fun t => s = t ∧ State.Has P Q t)
      (stopImport i d p) fun (_ : Unit) t => t.Has P Q :=
    fun _ p => (preserves_stopImport i d p).mono (fun _ h => h.2) fun _ _ h => h
  refine Ensures.bind Ensures.get fun s => ?_
  split
  · exact hstop s _
  · dsimp only
    split
    · exact hstop s _
    · split
      · exact Ensures.pure fun _ h => h.2
      · split
        · exact hstop s _
        · refine Ensures.bind
            (Ensures.set fun s' hs => ?_ : Ensures _ _ fun _ t => State.Has P Q t) fun _ => ?_
          · obtain ⟨rfl, hs⟩ := hs
            exact ⟨hs.types, hs.messages⟩
          · split
            · exact preserves_importSource hi d _
            · exact preserves_importDocument hi.supply d _

theorem preserves_dropMessages (c : Context) (count : Nat) (span : Span) :
    Preserves P Q (dropMessages c count span) := by
  refine Ensures.bind Ensures.get fun s => ?_
  refine Ensures.set fun s' hs => ?_
  obtain ⟨rfl, hs⟩ := hs
  exact ⟨hs.types, hs.messages.sublist (List.take_sublist _ _)⟩

theorem preserves_importDeclared {imports : Option Imports}
    (hi : ∀ i ∈ imports, i.Supply P Q) (c : Context) (inProtocol : Bool) (d : ImportDecl) :
    Preserves P Q (importDeclared c imports inProtocol d) := by
  refine Ensures.bind (preserves_reported _) fun location => ?_
  split
  · exact preserves_reported _
  · next i =>
    refine Ensures.bind Ensures.get fun s => ?_
    refine Ensures.bind ((preserves_importFile (hi i rfl) d location).mono (fun _ h => h.2)
      fun _ _ h => h) fun _ => ?_
    split
    · exact preserves_dropMessages c _ _
    · exact Ensures.pure fun _ h => h

theorem preserves_addMessage {c : Context} {d : MessageDecl} (h : (messageOf c d).Gives Q) :
    Preserves P Q (addMessage c d) := by
  refine Ensures.bind (reported_ensures h) fun message => ?_
  refine Ensures.bind Ensures.get fun s => ?_
  split
  · exact (preserves_reported _).mono (fun _ h => h.2.2) fun _ _ h => h
  · next hnew =>
    refine Ensures.set fun s' hs => ?_
    obtain ⟨rfl, hm, hs⟩ := hs
    exact ⟨hs.types, hs.messages.append hm (by simpa using hnew)⟩

theorem preserves_addDeclaration {tree : FileTree} (h : Supply tree P Q)
    {imports : Option Imports} (hi : ∀ i ∈ imports, i.Supply P Q) (c : Context)
    (inProtocol : Bool) {d : Declaration}
    (hd : ∀ m, d = .message m → (messageOf c m).Gives Q) :
    Preserves P Q (addDeclaration c imports inProtocol d) := by
  -- a declared type is registered
  have hregister : ∀ {r : Report Schema}, r.Gives P →
      Preserves P Q (reported r >>= registerNamed c.file) := by
    intro r hr
    refine Ensures.bind (reported_ensures hr) fun s => ?_
    rintro t ⟨hs, ht⟩
    exact preserves_registerNamed hs t ht
  cases d with
  | file d => exact preserves_importDeclared hi c inProtocol d
  | record d => exact hregister (h.record c d)
  | enum d => exact hregister (.ofExcept (h.enum c d))
  | fixed d => exact hregister (.ofExcept (h.fixed c d))
  | message d => exact preserves_addMessage (hd d rfl)

theorem preserves_addDeclarations {tree : FileTree} (h : Supply tree P Q)
    {imports : Option Imports} (hi : ∀ i ∈ imports, i.Supply P Q) (c : Context)
    (inProtocol : Bool) {ds : List Declaration}
    (hds : ∀ m, .message m ∈ ds → ∀ c, (messageOf c m).Gives Q) :
    Preserves P Q (addDeclarations c imports inProtocol ds) := by
  induction ds with
  | nil => exact Ensures.pure fun _ h => h
  | cons d ds ih =>
    have hone : ∀ m, d = .message m → (messageOf c m).Gives Q := by
      rintro m rfl
      exact hds m List.mem_cons_self c
    exact Ensures.bind (preserves_addDeclaration h hi c inProtocol hone) fun _ =>
      ih fun m hm => hds m (List.mem_cons_of_mem d hm)

theorem addProtocol_ensures {tree : FileTree} (h : Supply tree P Q) {imports : Option Imports}
    (hi : ∀ i ∈ imports, i.Supply P Q) (file : Text) {d : ProtocolDecl}
    (hd : ∀ m, .message m ∈ d.body → ∀ c, (messageOf c m).Gives Q) :
    Ensures (State.Has P Q) (addProtocol file imports d)
      fun idl s => FileHas Q idl ∧ s.Has P Q := by
  have hcollect : (Report.ofExcept (AnnotationSet.collect file { space := true }
      d.annotations)).Gives (AnnotationSet.Collected { space := true }) :=
    .ofExcept (AnnotationSet.collect_yields file _ d.annotations)
  refine Ensures.bind (reported_ensures hcollect) fun set => ?_
  rintro s₀ ⟨hset, hs₀⟩
  revert s₀
  refine Ensures.bind (preserves_reported _) fun q => ?_
  refine Ensures.bind (preserves_addDeclarations h hi _ true hd) fun _ => ?_
  refine Ensures.bind Ensures.get fun s => ?_
  refine Ensures.pure fun s' hs => ?_
  obtain ⟨rfl, hs⟩ := hs
  refine ⟨⟨hs.messages, by simp [Compilation.Root.main?], fun p hp => ?_⟩, hs⟩
  cases hp
  exact hset.free _ (.inl ⟨rfl, rfl⟩)

theorem addSchemas_ensures {tree : FileTree} (h : Supply tree P Q) {imports : Option Imports}
    (hi : ∀ i ∈ imports, i.Supply P Q) (file : Text) (space : Option Identifier)
    (main : Option TypeNode) {ds : List Declaration}
    (hds : ∀ m, .message m ∈ ds → ∀ c, (messageOf c m).Gives Q) :
    Ensures (State.Has P Q) (addSchemas file imports space main ds)
      fun idl s => FileHas Q idl ∧ s.Has P Q := by
  refine Ensures.bind (preserves_reported _) fun scope => ?_
  refine Ensures.bind (preserves_addDeclarations h hi _ false hds) fun _ => ?_
  split
  · refine Ensures.bind Ensures.get fun s => Ensures.pure fun s' hs => ?_
    exact ⟨⟨hasMessages_nil, by simp [Compilation.Root.main?], by simp⟩, hs.2⟩
  · next type =>
    have hgives : (typeOf ⟨file, scope⟩ type).Gives DeclaredType :=
      fun _ _ _ _ h => ⟨_, _, _, _, h⟩
    refine Ensures.bind (reported_ensures hgives) fun schema => ?_
    refine Ensures.bind Ensures.get fun s => Ensures.pure fun s' hs => ?_
    obtain ⟨-, hd, hs⟩ := hs
    refine ⟨⟨hasMessages_nil, ?_, by simp⟩, hs⟩
    simp only [Compilation.Root.main?, Option.some.injEq]
    rintro _ rfl
    exact hd

theorem addUnit_ensures {tree : FileTree} (h : Supply tree P Q) {imports : Option Imports}
    (hi : ∀ i ∈ imports, i.Supply P Q) (file : Text) {u : SourceUnit}
    (hu : ∀ m, .message m ∈ u.declarations → ∀ c, (messageOf c m).Gives Q) :
    Ensures (State.Has P Q) (addUnit file imports u)
      fun idl s => FileHas Q idl ∧ s.Has P Q := by
  refine Ensures.bind (preserves_reported _) fun _ => ?_
  obtain ⟨body, orphans⟩ := u
  cases body with
  | protocol d => exact addProtocol_ensures h hi file hu
  | schemas space main ds => exact addSchemas_ensures h hi file space main hu

end Preserves

end Build

namespace Compilation

open Build

variable {P : Schema → Prop} {Q : Message → Prop}

/-- What holds of everything that a build may take up holds of its outcome. -/
theorem buildSource_supplies {imports : Imports} (hi : imports.Supply P Q) {source : Text}
    {s s' : State} {file : IdlFile} (hs : s.Has P Q)
    (h : buildSource imports source s = (.ok file, s')) : FileHas Q file ∧ s'.Has P Q := by
  have hsupply : ∀ i ∈ some imports, i.Supply P Q := by simpa using hi
  unfold buildSource at h
  dsimp only at h
  split at h
  · cases h
  · next unit htree =>
    split at h
    · next idl t hrun =>
      cases h
      exact addUnit_ensures hi.supply hsupply _ (hi.supply.message htree) s hs _ _ hrun
    · cases h

theorem loadSource_supplies {tree : FileTree} (htree : Supply tree P Q) {inner : Option Loader}
    (hi : ∀ load, inner = some load → load.Supplies P Q) :
    (loadSource tree inner).Supplies P Q := by
  intro path session hnone
  have hsupply : Imports.Supply P Q ⟨tree, path, inner⟩ := ⟨htree, hi⟩
  have hstart : State.Has P Q { registry := { file := path.text }, session := session } :=
    ⟨hasTypes_empty _, hasMessages_nil⟩
  unfold loadSource at hnone ⊢
  dsimp only at hnone ⊢
  split
  · next hread => simp [hread] at hnone
  · next source hread =>
    rw [hread] at hnone
    dsimp only at hnone
    split
    · next hb => simp [hb] at hnone
    · next hb => simp [hb] at hnone
    · next p names s hb =>
      obtain ⟨hfile, hs⟩ := buildSource_supplies hsupply hstart hb
      exact ⟨hs.types, hfile.messages⟩
    · next s _ hb =>
      obtain ⟨-, hs⟩ := buildSource_supplies hsupply hstart hb
      exact ⟨hs.types, hasMessages_nil⟩

/-- However many sources import each other, what is loaded has the properties. -/
theorem loader_supplies {tree : FileTree} (htree : Supply tree P Q) (depth : Nat) {load : Loader}
    (h : loader tree depth = some load) : load.Supplies P Q := by
  induction depth generalizing load with
  | zero => cases h
  | succ depth ih =>
    cases h
    exact loadSource_supplies htree fun _ h => ih h

/-- A compiled unit is what its build gives, resolved and checked. -/
theorem exists_built_of_root {tree : FileTree} (htree : Supply tree P Q)
    {searchDirectories : List Path} {source : Text} {path : Path} {unit : Root}
    (h : (root tree searchDirectories source path).result = .ok unit) :
    ∃ registry file, HasTypes P registry ∧ FileHas Q file ∧ finish registry file = .ok unit := by
  unfold root at h
  dsimp only at h
  split at h
  · cases h
  · next file s hb =>
    have hstart : State.Has P Q
        { registry := { file := path.text }
          session := (Session.enter { searchDirectories := searchDirectories }
            (tree.canonical path)).markVisited (tree.canonical path) } :=
      ⟨hasTypes_empty _, hasMessages_nil⟩
    obtain ⟨hfile, hs⟩ := buildSource_supplies
      ⟨htree, fun _ hl => loader_supplies htree Session.maxDepth hl⟩ hstart hb
    exact ⟨s.registry, file, hs.types, hfile, h⟩

end Compilation

end AvroIdl
