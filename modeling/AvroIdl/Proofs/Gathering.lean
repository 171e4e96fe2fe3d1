import AvroIdl.Proofs.CanonicalPath
import AvroIdl.Proofs.CompiledUnit
import AvroIdl.Proofs.SessionDiscipline

/-!
# What a build gathers

A build that succeeds goes through its declarations and adds the names of types and messages, its
own and those of the files that it loads. `Gathers` tells this in terms of the import graph: it is
the walk that a build makes through the graph, with the files that it loads on the way. Whatever is
said about the outcome of imports is said about such walks.
-/
namespace AvroIdl

namespace Build

open Import (Target)

/-- What imports change in the state of a build. -/
structure Stock where
  session : Session
  types : List Text
  messages : List Text
  deriving DecidableEq, Repr

def State.stock (s : State) : Stock := ⟨s.session, s.registry.names, s.messages.map (·.name)⟩

section Declared

variable {α : Type} {s s' : State}

theorem reported_eq_ok {r : Report α} {a : α} (h : (reported r).run s = (.ok a, s')) :
    (r.run s.warnings).1 = .ok a ∧ s'.stock = s.stock := by
  rw [reported_run] at h
  obtain ⟨ha, rfl⟩ := Prod.mk.inj h
  exact ⟨ha, rfl⟩

theorem reported_ofExcept_eq_ok {x : Except Diagnostic α} {a : α}
    (h : (reported (Report.ofExcept x)).run s = (.ok a, s')) : x = .ok a ∧ s'.stock = s.stock := by
  obtain ⟨ha, hs⟩ := reported_eq_ok h
  cases x with
  | ok b => exact ⟨ha, hs⟩
  | error e => cases ha

theorem reported_decoded_eq_ok {c : Context} {span : Span} {x : Except Literal.Problem α} {a : α}
    (h : (reported (decoded c span x)).run s = (.ok a, s')) : x = .ok a ∧ s'.stock = s.stock := by
  obtain ⟨ha, hs⟩ := reported_eq_ok h
  cases x with
  | ok b =>
    cases ha
    exact ⟨rfl, hs⟩
  | error p => cases ha

theorem registerNamed_eq_ok {file : Text} {schema : Schema}
    (h : (registerNamed file schema).run s = (.ok ⟨⟩, s')) :
    s'.stock = { s.stock with types := s.stock.types ++ [schema.full] } := by
  unfold registerNamed at h
  rw [get_bind_run] at h
  split at h
  · next registry hr =>
    cases h
    obtain ⟨_, hi⟩ := Registry.register_eq_ok hr
    simp [State.stock, Registry.names_of_insert hi]
  · cases h

theorem typeName?_of_recordOf (c : Context) (d : RecordDecl) :
    (recordOf c d).Gives fun schema => Declaration.typeName? c (.record d) = some schema.full := by
  have hhead : Yields (headOf c d.name d.doc d.annotations) fun p =>
      headOf c d.name d.doc d.annotations = .ok p := fun _ h => h
  refine .bind (.ofExcept hhead) fun p hp => ?_
  refine .bind (.any _) fun fields _ => .pure ?_
  rw [Declaration.typeName?, hp]
  rfl

theorem typeName?_of_enumOf (c : Context) (d : EnumDecl) :
    Yields (enumOf c d) fun schema => Declaration.typeName? c (.enum d) = some schema.full := by
  have hhead : Yields (headOf c d.name d.doc d.annotations) fun p =>
      headOf c d.name d.doc d.annotations = .ok p := fun _ h => h
  refine .bind hhead fun p hp => .bind (.any _) fun symbols _ => ?_
  have hname : Declaration.typeName? c (.enum d) = some p.2.full := by
    rw [Declaration.typeName?, hp]
    rfl
  split
  · exact .ok hname
  · split
    · exact .ok hname
    · exact .error

theorem typeName?_of_fixedOf (c : Context) (d : FixedDecl) :
    Yields (fixedOf c d) fun schema => Declaration.typeName? c (.fixed d) = some schema.full := by
  have hhead : Yields (headOf c d.name d.doc d.annotations) fun p =>
      headOf c d.name d.doc d.annotations = .ok p := fun _ h => h
  refine .bind hhead fun p hp => ?_
  dsimp only
  split
  · refine .ok ?_
    rw [Declaration.typeName?, hp, Schema.full_promote_fixed]
    rfl
  · exact .error

theorem name_of_messageOf (c : Context) (d : MessageDecl) :
    (messageOf c d).Gives fun message => message.name = d.name.text := by
  refine .bind (.any _) fun set _ => ?_
  dsimp only
  split
  · exact .fail
  · exact .bind (.any _) fun _ _ => .bind (.any _) fun _ _ => .pure rfl

theorem addMessage_eq_ok {c : Context} {d : MessageDecl}
    (h : (addMessage c d).run s = (.ok ⟨⟩, s')) :
    s'.stock = { s.stock with messages := s.stock.messages ++ [d.name.text] } := by
  obtain ⟨message, s₁, hr, h⟩ := bind_run_eq_ok h
  obtain ⟨hm, hs₁⟩ := reported_eq_ok hr
  have hname : message.name = d.name.text :=
    name_of_messageOf c d s.warnings trivial message _ (Prod.ext hm rfl)
  rw [get_bind_run] at h
  split at h
  · cases h
  · cases h
    rw [← hs₁]
    simp [State.stock, hname]

/-- A declared type is registered under its name. -/
theorem register_eq_ok {c : Context} {d : Declaration} {r : Report Schema}
    (hr : r.Gives fun schema => d.typeName? c = some schema.full)
    (h : (reported r >>= registerNamed c.file).run s = (.ok ⟨⟩, s')) :
    ∃ name, d.typeName? c = some name ∧
      s'.stock = { s.stock with types := s.stock.types ++ [name] } := by
  obtain ⟨schema, s₁, hrun, h⟩ := bind_run_eq_ok h
  obtain ⟨hschema, hs₁⟩ := reported_eq_ok hrun
  refine ⟨schema.full, hr s.warnings trivial schema _ (Prod.ext hschema rfl), ?_⟩
  rw [registerNamed_eq_ok h, hs₁]

end Declared

section Merge

/-- Types that do not collide come after those that are there. -/
theorem names_addTypes {r : Registry} {es : List Registry.Entry}
    (h : (Import.addTypes r es).2 = []) :
    (Import.addTypes r es).1.names = r.names ++ es.map fun e => e.schema.full := by
  induction es generalizing r with
  | nil => simp [Import.addTypes]
  | cons e es ih =>
    simp only [Import.addTypes, List.append_eq_nil_iff] at h
    obtain ⟨hone, hrest⟩ := h
    have hadded : (Import.addType r e).1.names = r.names ++ [e.schema.full] := by
      unfold Import.addType at hone ⊢
      split
      · next hknown => simp [hknown] at hone
      · next hnew =>
        rw [hnew] at hone
        dsimp only at hone ⊢
        split
        · next registry hr =>
          obtain ⟨_, hi⟩ := Registry.register_eq_ok hr
          exact Registry.names_of_insert hi
        · next hr => simp [hr] at hone
    simp [Import.addTypes, ih hrest, hadded]

theorem addMessages_eq {file : Text} {path : Path} {messages imported : List Message}
    (h : (Import.addMessages file path messages imported).2 = []) :
    (Import.addMessages file path messages imported).1 = messages ++ imported := by
  induction imported generalizing messages with
  | nil => simp [Import.addMessages]
  | cons m imported ih =>
    rw [Import.addMessages] at h ⊢
    split at h
    · cases h
    · next hnew =>
      rw [if_neg hnew, ih h]
      simp

variable {i : Imports} {d : ImportDecl} {path : Path} {s s' : State}

theorem mergeImport_eq_ok {types : List Registry.Entry} {messages : List Message}
    (h : (mergeImport i d path types messages).run s = (.ok ⟨⟩, s')) :
    s'.stock = ⟨s.session, s.stock.types ++ types.map (fun e => e.schema.full),
        s.stock.messages ++ messages.map (·.name)⟩ ∧
      s'.messages = s.messages ++ messages := by
  unfold mergeImport at h
  rw [get_bind_run] at h
  dsimp only at h
  obtain ⟨_, s₁, hset, h⟩ := bind_run_eq_ok h
  cases hset
  split at h
  · cases h
  · next hcollisions =>
    cases h
    have hnone : (Import.addTypes s.registry types).2 = [] ∧
        (Import.addMessages s.registry.file path s.messages messages).2 = [] := by
      simpa [Import.merge] using hcollisions
    have hmessages := addMessages_eq hnone.2
    refine ⟨?_, hmessages⟩
    simp only [State.stock, Import.merge, names_addTypes hnone.1, hmessages, List.map_append]

/-- A document that was taken in could be read, and its types and messages are added. -/
theorem importDocument_eq_ok {t : Target} (hkind : d.kind = t.kind)
    (h : (importDocument i d t.path).run s = (.ok ⟨⟩, s')) :
    ∃ document, Import.document? i.tree t = some document ∧
      s'.stock = ⟨s.session, s.stock.types ++ document.types.map Schema.full,
        s.stock.messages ++ document.messages.map (·.name)⟩ ∧
      s'.messages = s.messages ++ document.messages := by
  rcases importDocument_eq i d t.path with ⟨document, hcontent, heq⟩ | ⟨p, -, heq⟩
  · rw [heq] at h
    rw [hkind] at hcontent
    exact ⟨document, hcontent, by simpa [Function.comp_def] using mergeImport_eq_ok h⟩
  · rw [heq] at h
    cases h

/-- A source that was taken in could be loaded, and what it gathered is added. -/
theorem importSource_eq_ok (h : (importSource i d path).run s = (.ok ⟨⟩, s')) :
    ∃ load, i.loader = some load ∧ (load path (s.session.enter path)).failure = none ∧
      s'.stock = ⟨(load path (s.session.enter path)).state.session.leave,
        s.stock.types ++ (load path (s.session.enter path)).state.stock.types,
        s.stock.messages ++ (load path (s.session.enter path)).state.stock.messages⟩ ∧
      s'.messages = s.messages ++ (load path (s.session.enter path)).state.messages := by
  unfold importSource at h
  split at h
  · cases h
  · next load hload =>
    rw [get_bind_run] at h
    dsimp only at h
    obtain ⟨_, s₁, hset, h⟩ := bind_run_eq_ok h
    cases hset
    split at h
    · cases h
    · next hnone =>
      exact ⟨load, hload, hnone, mergeImport_eq_ok h⟩

end Merge

/-- Only a protocol carries messages. -/
def carried (isProtocol : Bool) (messages : List Text) : List Text :=
  if isProtocol then messages else []

@[simp]
theorem mem_carried {isProtocol : Bool} {messages : List Text} {m : Text} :
    m ∈ carried isProtocol messages ↔ isProtocol = true ∧ m ∈ messages := by
  unfold carried
  split <;> simp_all

section Import

variable {i : Imports} {t : Target} {d : ImportDecl} {s s' : State}

/-- What an import that succeeds gains: nothing from a file that has been visited, and otherwise
the content of a document or what the build of a source has gathered. -/
inductive Gains (i : Imports) (t : Target) (session : Session) : Stock → Prop
  | known (closed : session.isInProgress t.path = false)
    (visited : session.isVisited t.path = true) : Gains i t session ⟨session, [], []⟩
  | document {document : Document} (kind : t.kind ≠ .idl) (admits : session.Admits t.path)
    (content : Import.document? i.tree t = some document) :
    Gains i t session ⟨session.markVisited t.path, document.types.map Schema.full,
      document.messages.map (·.name)⟩
  | source {load : Loader} {loaded : Loaded} (kind : t.kind = .idl)
    (admits : session.Admits t.path) (loader : i.loader = some load)
    (load_eq : load t.path ((session.markVisited t.path).enter t.path) = loaded)
    (success : loaded.failure = none) :
    Gains i t session ⟨loaded.state.session.leave, loaded.state.stock.types,
      loaded.state.stock.messages⟩

theorem importFile_eq_ok {location : Text}
    (hlocation : Literal.decodeString d.location = .ok location)
    (h : (importFile i d location).run s = (.ok ⟨⟩, s')) :
    ∃ t added gain, Import.target? i.tree s.session.searchDirectories i.importer d = some t ∧
      Gains i t s.session gain ∧ s'.messages = s.messages ++ added ∧
      added.map (·.name) = gain.messages ∧ s'.session = gain.session ∧
      s'.stock.types = s.stock.types ++ gain.types := by
  have htarget {found : Path} (hfound : Import.locate? i.tree i.importer
      s.session.searchDirectories location = some found) :
      Import.target? i.tree s.session.searchDirectories i.importer d =
        some ⟨d.kind, i.tree.canonical found⟩ := by
    simp [Import.target?, hlocation, hfound]
  rcases importFile_cases i.tree i.importer d location s with
    ⟨found, hfound, hadmits⟩ | ⟨result, hdismissed, hrun⟩
  · rw [importFile_of_admits hfound hadmits] at h
    split at h
    · next hkind =>
      obtain ⟨load, hload, hnone, hstock, hmessages⟩ := importSource_eq_ok h
      refine ⟨_, _, _, htarget hfound, .source hkind hadmits hload rfl hnone, hmessages, rfl,
        ?_, ?_⟩
      · exact congrArg Stock.session hstock
      · exact congrArg Stock.types hstock
    · next hkind =>
      obtain ⟨document, hcontent, hstock, hmessages⟩ :=
        importDocument_eq_ok (t := ⟨d.kind, i.tree.canonical found⟩) rfl h
      refine ⟨_, _, _, htarget hfound, .document hkind hadmits hcontent, hmessages, rfl, ?_, ?_⟩
      · exact congrArg Stock.session hstock
      · exact congrArg Stock.types hstock
  · obtain ⟨rfl, rfl⟩ := Prod.mk.inj ((hrun i.loader).symm.trans h)
    cases hdismissed with
    | known hfound hclosed hvisited =>
      exact ⟨_, [], _, htarget hfound, .known hclosed hvisited, by simp, rfl, rfl, by simp⟩

/-- All that an import declaration does when it succeeds. -/
theorem importDeclared_eq_ok {c : Context} {inProtocol : Bool}
    (h : (importDeclared c (some i) inProtocol d).run s = (.ok ⟨⟩, s')) :
    ∃ t gain, Import.target? i.tree s.session.searchDirectories i.importer d = some t ∧
      Gains i t s.session gain ∧
      s'.stock = ⟨gain.session, s.stock.types ++ gain.types,
        s.stock.messages ++ carried inProtocol gain.messages⟩ := by
  obtain ⟨location, s₁, hdecode, h⟩ := bind_run_eq_ok h
  obtain ⟨hlocation, hs₁⟩ := reported_decoded_eq_ok hdecode
  dsimp only at h
  rw [get_bind_run] at h
  obtain ⟨_, s₂, hfile, h⟩ := bind_run_eq_ok h
  obtain ⟨t, added, gain, htarget, hgains, hmessages, hadded, hsession, htypes⟩ :=
    importFile_eq_ok hlocation hfile
  have hsame : s₁.session = s.session := congrArg Stock.session hs₁
  rw [hsame] at htarget hgains
  rw [hs₁] at htypes
  have hbefore : s₁.messages.map (·.name) = s.stock.messages := congrArg Stock.messages hs₁
  refine ⟨t, gain, htarget, hgains, ?_⟩
  cases inProtocol with
  | true =>
    cases h
    simp only [State.stock] at htypes hbefore ⊢
    simp [hsession, htypes, hmessages, hadded, hbefore, carried]
  | false =>
    cases h
    simp only [State.stock] at htypes hbefore ⊢
    simp [hsession, htypes, hmessages, hbefore, carried]

/-- All that a declaration does when it succeeds. -/
theorem addDeclaration_eq_ok {c : Context} {inProtocol : Bool} {d : Declaration}
    (h : (addDeclaration c (some i) inProtocol d).run s = (.ok ⟨⟩, s')) :
    (∃ name, d.typeName? c = some name ∧
      s'.stock = { s.stock with types := s.stock.types ++ [name] }) ∨
    (∃ m, d = .message m ∧
      s'.stock = { s.stock with messages := s.stock.messages ++ [m.name.text] }) ∨
    ∃ file t gain, d = .file file ∧
      Import.target? i.tree s.session.searchDirectories i.importer file = some t ∧
      Gains i t s.session gain ∧
      s'.stock = ⟨gain.session, s.stock.types ++ gain.types,
        s.stock.messages ++ carried inProtocol gain.messages⟩ := by
  cases d with
  | file d =>
    obtain ⟨t, gain, htarget, hgains, hstock⟩ := importDeclared_eq_ok h
    exact .inr (.inr ⟨d, t, gain, rfl, htarget, hgains, hstock⟩)
  | record d => exact .inl (register_eq_ok (typeName?_of_recordOf c d) h)
  | enum d => exact .inl (register_eq_ok (.ofExcept (typeName?_of_enumOf c d)) h)
  | fixed d => exact .inl (register_eq_ok (.ofExcept (typeName?_of_fixedOf c d)) h)
  | message d => exact .inr (.inl ⟨d, rfl, addMessage_eq_ok h⟩)

end Import

end Build

end AvroIdl
