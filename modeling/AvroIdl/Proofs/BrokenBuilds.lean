import AvroIdl.Proofs.ImportErrors
import AvroIdl.Proofs.ThrownFaults

/-!
# What breaks a compilation off

A compilation returns nothing exactly if it gets to what is thrown: to an order that cannot be
shown, or to an imported document with a number out of range, be it in the source or in one that is
open. How far it gets is said by the declarations before, which have been built without an error.
-/
namespace AvroIdl

theorem Import.Problem.isFault_diagnostic {p : Import.Problem} (h : ∀ path, p ≠ .overflow path)
    (importer : Path) (span : Span) : (p.diagnostic importer span).isFault = false := by
  have hkind : p.kind ≠ .fault := by
    cases p with
    | overflow path => exact absurd rfl (h path)
    | invalid path problems =>
      cases problems with
      | nil => simp [Import.Problem.kind]
      | cons p ps => cases p <;> simp [Import.Problem.kind, Document.Problem.kind]
    | _ => simp [Import.Problem.kind]
  simpa [Diagnostic.isFault, Import.Problem.diagnostic] using hkind

namespace Build

open Report

/-- Run in the state, the computation ends with something that was thrown. -/
def ThrowsAt {α : Type} (x : Assembly α) (s : State) : Prop := Throws (x.run s).1

section Assembly

variable {α β : Type} {s : State}

theorem throwsAt_bind_iff {x : Assembly α} {f : α → Assembly β} :
    ThrowsAt (x >>= f) s ↔ ThrowsAt x s ∨ ∃ a s', x.run s = (.ok a, s') ∧ ThrowsAt (f a) s' := by
  unfold ThrowsAt
  rcases hr : x.run s with ⟨result, s'⟩
  cases result with
  | ok a =>
    rw [bind_run_of_ok hr]
    refine ⟨fun h => .inr ⟨a, s', rfl, h⟩, ?_⟩
    rintro (h | ⟨b, s'', he, h⟩)
    · exact absurd h not_throws_ok
    · cases he
      exact h
  | error d =>
    rw [bind_run_of_error hr]
    refine ⟨fun h => .inl (throws_error.mpr (throws_error.mp h)), ?_⟩
    rintro (h | ⟨b, s'', he, -⟩)
    · exact throws_error.mpr (throws_error.mp h)
    · cases he

theorem not_throwsAt_pure (a : α) : ¬ThrowsAt (pure a) s := not_throws_ok

theorem throwsAt_throw_iff {d : Diagnostic} :
    ThrowsAt (throw d : Assembly α) s ↔ d.isFault = true := throws_error

theorem not_throwsAt_throw {d : Diagnostic} (h : d.isFault = false) :
    ¬ThrowsAt (throw d : Assembly α) s := by
  rw [throwsAt_throw_iff, h]
  exact Bool.false_ne_true

theorem throwsAt_get_iff {f : State → Assembly β} :
    ThrowsAt (get >>= f) s ↔ ThrowsAt (f s) s := Iff.rfl

theorem throwsAt_set_iff {s' : State} {f : PUnit → Assembly β} :
    ThrowsAt (set s' >>= f) s ↔ ThrowsAt (f ⟨⟩) s' := Iff.rfl

theorem throwsAt_reported_iff {r : Report α} (h : r.Tells) :
    ThrowsAt (reported r) s ↔ Throws r.result := by
  rw [ThrowsAt, reported_run, h.run_eq]

/-- After what is only told, the rest decides. -/
theorem throwsAt_reported_bind_iff {r : Report α} {f : α → Assembly β} (h : r.Tells)
    (hr : ¬Throws r.result) :
    ThrowsAt (reported r >>= f) s ↔
      ∃ a s', (reported r).run s = (.ok a, s') ∧ ThrowsAt (f a) s' := by
  rw [throwsAt_bind_iff, throwsAt_reported_iff h]
  simp [hr]

theorem not_throwsAt_registerNamed (file : Text) (schema : Schema) :
    ¬ThrowsAt (registerNamed file schema) s := by
  rw [registerNamed, throwsAt_get_iff]
  split
  · exact not_throws_ok
  · next hr => exact not_throwsAt_throw (Registry.isTold_of_register hr).caught

end Assembly

section Imports

variable {i : Imports} {d : ImportDecl} {path : Path} {s : State}

theorem not_throwsAt_stopImport {α : Type} {p : Import.Problem} (h : ∀ path, p ≠ .overflow path) :
    ¬ThrowsAt (stopImport i d p : Assembly α) s :=
  not_throwsAt_throw (Import.Problem.isFault_diagnostic h _ _)

theorem not_throwsAt_mergeImport (types : List Registry.Entry) (messages : List Message) :
    ¬ThrowsAt (mergeImport i d path types messages) s := by
  rw [mergeImport, throwsAt_get_iff]
  dsimp only
  rw [throwsAt_set_iff]
  split
  · exact not_throwsAt_stopImport (by simp)
  · exact not_throws_ok

/-- A document throws exactly at a number that is out of range. -/
theorem throwsAt_importDocument_iff :
    ThrowsAt (importDocument i d path) s ↔
      ∃ contents rest, i.tree.read? path = some contents ∧
        Json.parse contents = .error (.overflow rest) := by
  unfold importDocument
  split
  · next hread => simp [hread, not_throwsAt_stopImport]
  · next contents hread =>
    split
    · next hparse => simp [hread, hparse, not_throwsAt_stopImport]
    · next rest hparse =>
      refine iff_of_true ⟨_, rfl, rfl⟩ ⟨contents, rest, hread, hparse⟩
    · next json hparse =>
      dsimp only
      split
      · simp [hread, hparse, not_throwsAt_stopImport]
      · simp [hread, hparse, not_throwsAt_mergeImport]

/-- A source throws exactly if loading it does. -/
theorem throwsAt_importSource_iff :
    ThrowsAt (importSource i d path) s ↔
      ∃ load, i.loader = some load ∧
        ∃ e, (load path (s.session.enter path)).failure = some e ∧ e.isFault = true := by
  unfold importSource
  split
  · next hnone => simp [hnone, not_throwsAt_stopImport]
  · next load hload =>
    rw [throwsAt_get_iff]
    dsimp only
    rw [throwsAt_set_iff]
    split
    · next failure hfailure => simp [hload, hfailure, throwsAt_throw_iff]
    · next hfailure => simp [hload, hfailure, not_throwsAt_mergeImport]

theorem throwsAt_importFile_iff {location : Text} :
    ThrowsAt (importFile i d location) s ↔
      ∃ found, Import.locate? i.tree i.importer s.session.searchDirectories location = some found ∧
        s.session.Admits (i.tree.canonical found) ∧
        ThrowsAt (if d.kind = .idl then importSource i d (i.tree.canonical found)
          else importDocument i d (i.tree.canonical found))
            { s with session := s.session.markVisited (i.tree.canonical found) } := by
  by_cases hadmits : ∃ found,
      Import.locate? i.tree i.importer s.session.searchDirectories location = some found ∧
        s.session.Admits (i.tree.canonical found)
  · obtain ⟨found, hfound, hadmits⟩ := hadmits
    rw [ThrowsAt, importFile_of_admits hfound hadmits]
    simp [hfound, hadmits, ThrowsAt]
  · obtain ⟨result, hdismissed, hrun⟩ := importFile_of_not_admits (d := d)
      fun found hfound h => hadmits ⟨found, hfound, h⟩
    refine iff_of_false ?_ fun ⟨found, hfound, h, _⟩ => hadmits ⟨found, hfound, h⟩
    rw [ThrowsAt, hrun i.loader]
    cases hdismissed with
    | known => exact not_throws_ok
    | absent | cyclic | deep =>
      exact not_throwsAt_stopImport (i := i) (d := d) (s := s) (by simp)

theorem not_throwsAt_dropMessages (c : Context) (count : Nat) (span : Span) :
    ¬ThrowsAt (dropMessages c count span) s := not_throws_ok

/-- Once its location is read, a declared import throws if taking in the file does. -/
theorem throwsAt_importDeclared_of_location {c : Context} {inProtocol : Bool} {location : Text}
    (h : Literal.decodeString d.location = .ok location) :
    ThrowsAt (importDeclared c (some i) inProtocol d) s ↔ ThrowsAt (importFile i d location) s := by
  have hdecoded : (reported (decoded c d.span (Literal.decodeString d.location))).run s =
      (.ok location, s) := by
    rw [h]
    rfl
  have hdrop (a : PUnit) (s : State) (count : Nat) : ¬ThrowsAt
      (if !inProtocol then dropMessages c count d.span else pure a : Assembly PUnit) s := by
    split
    · exact not_throwsAt_dropMessages c count d.span
    · exact not_throwsAt_pure a
  rw [importDeclared, ThrowsAt, bind_run_of_ok hdecoded]
  change ThrowsAt (get >>= _) s ↔ _
  rw [throwsAt_get_iff, throwsAt_bind_iff]
  exact ⟨fun h => h.resolve_right fun ⟨a, s', _, h⟩ => hdrop a s' _ h, .inl⟩

/-- A declared import throws if it leads to a file that the session admits, and this is a document
with a number out of range, or a source whose loading throws. -/
theorem throwsAt_importDeclared_iff {c : Context} {inProtocol : Bool} :
    ThrowsAt (importDeclared c (some i) inProtocol d) s ↔
      ∃ t, Import.target? i.tree s.session.searchDirectories i.importer d = some t ∧
        s.session.Admits t.path ∧
        (t.kind ≠ .idl ∧ (∃ contents rest, i.tree.read? t.path = some contents ∧
            Json.parse contents = .error (.overflow rest)) ∨
          t.kind = .idl ∧ ∃ load, i.loader = some load ∧
            ∃ e, (load t.path ((s.session.markVisited t.path).enter t.path)).failure = some e ∧
              e.isFault = true) := by
  cases hlocation : Literal.decodeString d.location with
  | error p =>
    refine iff_of_false ?_ (by simp [Import.target?, hlocation])
    rw [importDeclared, hlocation]
    exact not_throwsAt_throw (permitsDefaults_caught.literal p c.file d.span)
  | ok location =>
    rw [throwsAt_importDeclared_of_location hlocation, throwsAt_importFile_iff]
    simp only [Import.target?, hlocation, Option.map_eq_some_iff]
    constructor
    · rintro ⟨found, hfound, hadmits, hthrows⟩
      refine ⟨_, ⟨found, hfound, rfl⟩, hadmits, ?_⟩
      split at hthrows
      · next hkind => exact .inr ⟨hkind, throwsAt_importSource_iff.mp hthrows⟩
      · next hkind => exact .inl ⟨hkind, throwsAt_importDocument_iff.mp hthrows⟩
    · rintro ⟨t, ⟨found, hfound, rfl⟩, hadmits, hthrows⟩
      refine ⟨found, hfound, hadmits, ?_⟩
      rcases hthrows with ⟨hkind, hthrows⟩ | ⟨hkind, hthrows⟩
      · rw [if_neg hkind]
        exact throwsAt_importDocument_iff.mpr hthrows
      · rw [if_pos hkind]
        exact throwsAt_importSource_iff.mpr hthrows

end Imports

section Units

variable {i : Imports} {c : Context} {inProtocol : Bool} {s : State}

theorem throwsAt_register_iff {r : Report Schema} (h : r.Tells) :
    ThrowsAt (reported r >>= registerNamed c.file) s ↔ Throws r.result := by
  rw [throwsAt_bind_iff, throwsAt_reported_iff h]
  exact ⟨fun h => h.resolve_right fun ⟨schema, s', _, h⟩ =>
    not_throwsAt_registerNamed c.file schema h, .inl⟩

theorem throwsAt_addMessage_iff {d : MessageDecl} :
    ThrowsAt (addMessage c d) s ↔ Throws (messageOf c d).result := by
  rw [addMessage, throwsAt_bind_iff, throwsAt_reported_iff (tells_messageOf c d)]
  refine ⟨fun h => h.resolve_right fun ⟨message, s', _, h⟩ => ?_, .inl⟩
  rw [throwsAt_get_iff] at h
  split at h
  · exact not_throwsAt_throw (isFault_of_kind_ne (by simp [Problem.kind]) _ _) h
  · exact not_throws_ok h

/-- Fields, parameters and imports are all that can throw. -/
theorem throwsAt_addDeclaration_iff {d : Declaration} :
    ThrowsAt (addDeclaration c (some i) inProtocol d) s ↔ Unshown c d ∨
      ∃ file, d = .file file ∧ ThrowsAt (importDeclared c (some i) inProtocol file) s := by
  have hother {d : Declaration} (hfile : d.import? = none) :
      (Unshown c d ∨ ∃ file, d = .file file ∧
        ThrowsAt (importDeclared c (some i) inProtocol file) s) ↔ Unshown c d := by
    refine or_iff_left ?_
    rintro ⟨file, rfl, -⟩
    cases hfile
  cases d with
  | file d =>
    have hunshown : ¬Unshown c (.file d) := nofun
    simp [addDeclaration, hunshown]
  | record d =>
    rw [hother rfl, addDeclaration, throwsAt_register_iff (tells_recordOf c d),
      throws_recordOf_iff]
  | enum d =>
    rw [hother rfl, addDeclaration, throwsAt_register_iff (tells_ofExcept (refuses_enumOf c d)),
      result_ofExcept]
    exact iff_of_false (permitsDefaults_caught.enumOf c d).not_throws nofun
  | fixed d =>
    rw [hother rfl, addDeclaration, throwsAt_register_iff (tells_ofExcept (refuses_fixedOf c d)),
      result_ofExcept]
    exact iff_of_false (permitsDefaults_caught.fixedOf c d).not_throws nofun
  | message d =>
    rw [hother rfl, addDeclaration, throwsAt_addMessage_iff, throws_messageOf_iff]

theorem throwsAt_addDeclarations_iff {imports : Option Imports} {ds : List Declaration} :
    ThrowsAt (addDeclarations c imports inProtocol ds) s ↔
      ∃ before d after, ds = before ++ d :: after ∧
        ∃ s', (addDeclarations c imports inProtocol before).run s = (.ok ⟨⟩, s') ∧
          ThrowsAt (addDeclaration c imports inProtocol d) s' := by
  induction ds generalizing s with
  | nil => simp [addDeclarations, not_throwsAt_pure]
  | cons d ds ih =>
    rw [addDeclarations, throwsAt_bind_iff, exists_split_cons_iff (P := fun before d =>
      ∃ s', (addDeclarations c imports inProtocol before).run s = (.ok ⟨⟩, s') ∧
        ThrowsAt (addDeclaration c imports inProtocol d) s')]
    refine or_congr ⟨fun h => ⟨s, rfl, h⟩, ?_⟩ ?_
    · rintro ⟨s', he, h⟩
      cases he
      exact h
    · simp only [ih]
      constructor
      · rintro ⟨_, s₁, hd, before, e, after, rfl, s', hbefore, hthrows⟩
        exact ⟨before, e, after, rfl, s', (bind_run_of_ok hd).trans hbefore, hthrows⟩
      · rintro ⟨before, e, after, rfl, s', hbefore, hthrows⟩
        obtain ⟨_, s₁, hd, hbefore⟩ := bind_run_eq_ok hbefore
        exact ⟨_, s₁, hd, before, e, after, rfl, s', hbefore, hthrows⟩

/-- A unit is built by what leads to a context for its declarations, by these, and by an end. -/
structure Framed (file : Text) (imports : Option Imports) (u : SourceUnit) {α : Type}
    (lead : Assembly (Context × α)) (finish close : Context × α → Assembly IdlFile) : Prop where
  whole : addUnit file imports u = lead >>= fun p =>
    addDeclarations p.1 imports u.isProtocol u.declarations >>= fun _ => finish p
  part : ∀ count, addUnit file imports (u.upTo count) = lead >>= fun p =>
    addDeclarations p.1 imports u.isProtocol (u.declarations.take count) >>= fun _ => close p
  context : ∀ s p s', lead.run s = (.ok p, s') → u.context? file = some p.1
  told : ∀ s, ¬ThrowsAt lead s
  ends : ∀ p s, ¬ThrowsAt (finish p) s
  closes : ∀ p s, ∃ idl, (close p).run s = (.ok idl, s)

theorem not_throwsAt_told {α β : Type} {r : Report α} {f : α → Assembly β}
    (h : TellsOnly (fun d => d.isFault = false) r) (hr : r.Tells)
    (hf : ∀ a s, ¬ThrowsAt (f a) s) : ¬ThrowsAt (reported r >>= f) s := by
  rw [throwsAt_reported_bind_iff hr h.refusesOnly.not_throws]
  rintro ⟨a, s', -, hthrows⟩
  exact hf a s' hthrows

/-- A protocol is framed by its annotations and name, and by putting its parts together. -/
theorem framed_protocol (file : Text) (imports : Option Imports) (p : ProtocolDecl)
    (orphans : List Span) :
    ∃ (lead : Assembly (Context × AnnotationSet × QualifiedName))
      (finish : Context × AnnotationSet × QualifiedName → Assembly IdlFile),
      Framed file imports ⟨.protocol p, orphans⟩ lead finish finish := by
  refine ⟨do
    reported (warnOrphans { file := file } orphans)
    let set ← reported (Report.ofExcept
      (AnnotationSet.collect file { space := true } p.annotations))
    let q ← reported (Report.ofExcept (declaredName { file := file } p.name set))
    return (⟨file, .of q.space⟩, set, q), fun a => do
      let s ← get
      let names := s.registry.names
      return ⟨.protocol { name := a.2.2.name, space := a.2.2.space, doc := p.doc
                          properties := a.2.1.properties, types := names
                          messages := s.messages }, names⟩, ?_, ?_, ?_, ?_, ?_, ?_⟩
  · simp only [addUnit, addProtocol, bind_assoc, pure_bind]
    rfl
  · intro count
    simp only [addUnit, addProtocol, bind_assoc, pure_bind, SourceUnit.upTo]
    rfl
  · intro s a s' h
    obtain ⟨_, s₁, -, h⟩ := bind_run_eq_ok h
    obtain ⟨set, s₂, hset, h⟩ := bind_run_eq_ok h
    obtain ⟨q, s₃, hq, h⟩ := bind_run_eq_ok h
    cases h
    exact context?_of_declaredName orphans (reported_ofExcept_eq_ok hset).1
      (reported_ofExcept_eq_ok hq).1
  · intro s
    refine not_throwsAt_told (tellsOnly_warnOrphans _ _) (Project.tells_warnOrphans _ _)
      fun _ s => ?_
    refine not_throwsAt_told (tellsOnly_ofExcept (permitsDefaults_caught.collect _ _ _ (by simp)))
      (tells_ofExcept (refuses_collect _ _ _)) fun set s => ?_
    refine not_throwsAt_told (tellsOnly_ofExcept (permitsDefaults_caught.declaredName _ _ _))
      (tells_ofExcept (refuses_declaredName _ _ _)) fun q s => not_throwsAt_pure _
  · exact fun a s => not_throws_ok
  · exact fun a s => ⟨_, rfl⟩

/-- A list of types is framed by its scope and its main schema. -/
theorem framed_schemas (file : Text) (imports : Option Imports) (space : Option Identifier)
    (main : Option TypeNode) (ds : List Declaration) (orphans : List Span) :
    ∃ (lead : Assembly (Context × Unit)) (finish close : Context × Unit → Assembly IdlFile),
      Framed file imports ⟨.schemas space main ds, orphans⟩ lead finish close := by
  let named : Assembly IdlFile := do return ⟨.named, (← get).registry.names⟩
  refine ⟨do
    reported (warnOrphans { file := file } orphans)
    let scope ← reported (scopeOf { file := file } space)
    return (⟨file, scope⟩, ()), fun a => main.elim named fun type => do
      let s ← reported (typeOf a.1 type)
      return ⟨.schema s, (← get).registry.names⟩, fun _ => named, ?_, ?_, ?_, ?_, ?_, ?_⟩
  · simp only [addUnit, addSchemas, bind_assoc, pure_bind]
    cases main <;> rfl
  · intro count
    simp only [addUnit, addSchemas, bind_assoc, pure_bind, SourceUnit.upTo]
    rfl
  · intro s a s' h
    obtain ⟨_, s₁, -, h⟩ := bind_run_eq_ok h
    obtain ⟨scope, s₂, hscope, h⟩ := bind_run_eq_ok h
    cases h
    exact context?_of_scopeOf main ds orphans (reported_eq_ok hscope).1
  · intro s
    refine not_throwsAt_told (tellsOnly_warnOrphans _ _) (Project.tells_warnOrphans _ _)
      fun _ s => ?_
    refine not_throwsAt_told (permitsDefaults_caught.scopeOf _ _) (Project.tells_scopeOf _ _)
      fun scope s => not_throwsAt_pure _
  · intro a s
    cases main with
    | none => exact not_throws_ok
    | some type =>
      exact not_throwsAt_told (admits_caught.typeOf _ _) (tells_typeOf _ _)
        fun schema s => not_throws_ok
  · exact fun a s => ⟨_, rfl⟩

/-- A unit throws at one of its declarations, where those before have been built. -/
theorem throwsAt_addUnit_iff {file : Text} {imports : Option Imports} {u : SourceUnit} :
    ThrowsAt (addUnit file imports u) s ↔ ∃ c, u.context? file = some c ∧
      ∃ before d after, u.declarations = before ++ d :: after ∧
        ∃ idl s', (addUnit file imports (u.upTo before.length)).run s = (.ok idl, s') ∧
          ThrowsAt (addDeclaration c imports u.isProtocol d) s' := by
  have hframed : ∃ (α : Type) (lead : Assembly (Context × α)) (finish close : _),
      Framed file imports u lead finish close := by
    obtain ⟨body, orphans⟩ := u
    cases body with
    | protocol p =>
      obtain ⟨lead, finish, h⟩ := framed_protocol file imports p orphans
      exact ⟨_, lead, finish, finish, h⟩
    | schemas space main ds => exact ⟨_, framed_schemas file imports space main ds orphans⟩
  obtain ⟨α, lead, finish, close, h⟩ := hframed
  rw [h.whole, throwsAt_bind_iff]
  simp only [h.told, false_or]
  constructor
  · rintro ⟨p, s₁, hlead, hthrows⟩
    rw [throwsAt_bind_iff] at hthrows
    have hthrows := hthrows.resolve_right fun ⟨_, s₂, _, hend⟩ => h.ends p s₂ hend
    obtain ⟨before, d, after, hds, s', hbefore, hthrows⟩ :=
      throwsAt_addDeclarations_iff.mp hthrows
    obtain ⟨idl, hclose⟩ := h.closes p s'
    refine ⟨p.1, h.context s p s₁ hlead, before, d, after, hds, idl, s', ?_, hthrows⟩
    rw [h.part, bind_run_of_ok hlead, hds, List.take_left, bind_run_of_ok hbefore]
    exact hclose
  · rintro ⟨c, hc, before, d, after, hds, idl, s', hrun, hthrows⟩
    rw [h.part, hds, List.take_left] at hrun
    obtain ⟨p, s₁, hlead, hrun⟩ := bind_run_eq_ok hrun
    obtain ⟨_, s₂, hbefore, hrun⟩ := bind_run_eq_ok hrun
    obtain ⟨idl', hclose⟩ := h.closes p s₂
    obtain ⟨-, rfl⟩ := Prod.mk.inj (hclose.symm.trans hrun)
    obtain rfl : p.1 = c := Option.some.inj ((h.context s p s₁ hlead).symm.trans hc)
    refine ⟨p, s₁, hlead, throwsAt_bind_iff.mpr (.inl ?_)⟩
    exact throwsAt_addDeclarations_iff.mpr ⟨before, d, after, hds, _, hbefore, hthrows⟩

end Units

end Build

namespace Compilation

open Build

/-- The build of a source, begun in a state, gets to a declaration in a context: the declarations
before it can be built, and lead to another state. -/
inductive Reaches (i : Imports) (source : Text) (s : State) : Context → Declaration → State → Prop
  | intro {u : SourceUnit} {c : Context} {before after : List Declaration} {d : Declaration}
    {idl : IdlFile} {s' : State} (read : treeOf source i.importer.text = .ok u)
    (context : u.context? i.importer.text = some c)
    (declared : u.declarations = before ++ d :: after)
    (built : (addUnit i.importer.text (some i) (u.upTo before.length)).run s = (.ok idl, s')) :
    Reaches i source s c d s'

/-- The build of the source at a path, opened in a session, is broken off: it gets to a declaration
with an order that cannot be shown, to an import of a document in which a number is out of range, or
to an import of a source whose build is broken off. -/
inductive Aborts (tree : FileTree) : Nat → Path → Text → Session → Prop
  | order {levels : Nat} {path : Path} {source : Text} {session : Session} {c : Context}
    {d : Declaration} {s : State}
    (reaches : Reaches ⟨tree, path, loader tree levels⟩ source (.opening path session) c d s)
    (unshown : Unshown c d) : Aborts tree levels path source session
  | number {levels : Nat} {path : Path} {source contents rest : Text} {session : Session}
    {c : Context} {d : ImportDecl} {s : State} {t : Import.Target}
    (reaches : Reaches ⟨tree, path, loader tree levels⟩ source (.opening path session) c
      (.file d) s)
    (leads : Import.target? tree s.session.searchDirectories path d = some t)
    (kind : t.kind ≠ .idl) (admits : s.session.Admits t.path)
    (content : tree.read? t.path = some contents)
    (large : Json.parse contents = .error (.overflow rest)) : Aborts tree levels path source session
  | inside {levels : Nat} {path : Path} {source contents : Text} {session : Session} {c : Context}
    {d : ImportDecl} {s : State} {t : Import.Target}
    (reaches : Reaches ⟨tree, path, loader tree (levels + 1)⟩ source (.opening path session) c
      (.file d) s)
    (leads : Import.target? tree s.session.searchDirectories path d = some t)
    (kind : t.kind = .idl) (admits : s.session.Admits t.path)
    (content : tree.read? t.path = some contents)
    (inner : Aborts tree levels t.path contents ((s.session.markVisited t.path).enter t.path)) :
    Aborts tree (levels + 1) path source session

section Sources

variable {tree : FileTree} {path : Path} {source : Text} {session : Session} {s : State}

/-- Building a source ends with something that was thrown. -/
def BuildThrows (i : Imports) (source : Text) (s : State) : Prop :=
  ∃ f, (buildSource i source s).1 = .error f ∧ f.diagnostics.any Diagnostic.isFault = true

/-- What cannot be read as a tree is told; the rest is up to the unit. -/
theorem buildThrows_iff_addUnit {i : Imports} :
    BuildThrows i source s ↔ ∃ u, treeOf source i.importer.text = .ok u ∧
      ThrowsAt (addUnit i.importer.text (some i) u) s := by
  unfold BuildThrows buildSource
  dsimp only
  cases htree : treeOf source i.importer.text with
  | error ds =>
    have htold : ∀ d ∈ ds, d.isFault = false := fun d hd => (isTold_of_treeOf htree d hd).caught
    simpa [Failure.diagnostics] using htold
  | ok u =>
    rcases hr : (addUnit i.importer.text (some i) u).run s with ⟨result, s'⟩
    dsimp only
    rw [hr]
    cases result with
    | ok idl => simp [ThrowsAt, hr]
    | error d => simp [ThrowsAt, hr, Failure.diagnostics]

/-- A source throws where one of its declarations does. -/
theorem buildThrows_iff_reaches {i : Imports} :
    BuildThrows i source s ↔
      ∃ c d s', Reaches i source s c d s' ∧ ThrowsAt (addDeclaration c (some i) true d) s' := by
  have hsame (c : Context) (d : Declaration) (s : State) (inProtocol : Bool) :
      ThrowsAt (addDeclaration c (some i) inProtocol d) s ↔
        ThrowsAt (addDeclaration c (some i) true d) s := by
    simp only [throwsAt_addDeclaration_iff, throwsAt_importDeclared_iff]
  rw [buildThrows_iff_addUnit]
  simp only [throwsAt_addUnit_iff, hsame]
  constructor
  · rintro ⟨u, htree, c, hc, before, d, after, hds, idl, s', hrun, hthrows⟩
    exact ⟨c, d, s', .intro htree hc hds hrun, hthrows⟩
  · rintro ⟨c, d, s', ⟨htree, hc, hds, hrun⟩, hthrows⟩
    exact ⟨_, htree, c, hc, _, d, _, hds, _, s', hrun, hthrows⟩

theorem caught_of_unreadable {i : Imports} {ds : List Diagnostic}
    (h : (buildSource i source s).1 = .error (.unreadable ds)) : ∀ d ∈ ds, d.isFault = false := by
  unfold buildSource at h
  dsimp only at h
  split at h
  · next htree =>
    cases h
    exact fun d hd => (isTold_of_treeOf htree d hd).caught
  · split at h <;> cases h

/-- A source that is loaded throws if it can be read and its build throws. -/
theorem loadSource_throws_iff {inner : Option Loader} :
    (∃ e, (loadSource tree inner path session).failure = some e ∧ e.isFault = true) ↔
      ∃ contents, tree.read? path = some contents ∧
        BuildThrows ⟨tree, path, inner⟩ contents (.opening path session) := by
  have hkind {kind : Diagnostic.Kind} {message : Text} {help : Option Text}
      {related : List Diagnostic} (h : kind ≠ .fault) :
      Diagnostic.isFault { kind := kind, message := message, file := path.text, help := help
                           related := related } = false := by
    simpa [Diagnostic.isFault] using h
  unfold loadSource
  dsimp only
  cases hread : tree.read? path with
  | none => simp [hkind]
  | some contents =>
    have hopening : State.opening path session =
      { registry := { file := path.text }, session := session } := rfl
    simp only [Option.some.injEq, exists_eq_left', BuildThrows]
    rw [← hopening]
    rcases hr : buildSource ⟨tree, path, inner⟩ contents (.opening path session) with ⟨result, s'⟩
    cases result with
    | ok idl =>
      obtain ⟨content, names⟩ := idl
      cases content <;> simp
    | error f =>
      cases f with
      | unreadable ds =>
        simpa [hkind, Failure.diagnostics] using caught_of_unreadable (congrArg Prod.fst hr)
      | declaration d => simp [Failure.diagnostics]

theorem aborts_of_buildThrows {levels : Nat}
    (h : BuildThrows ⟨tree, path, loader tree levels⟩ source (.opening path session)) :
    Aborts tree levels path source session := by
  induction levels using Nat.strong_induction_on generalizing path source session with
  | h levels ih =>
    obtain ⟨c, d, s', hreaches, hthrows⟩ := buildThrows_iff_reaches.mp h
    rw [throwsAt_addDeclaration_iff] at hthrows
    rcases hthrows with hunshown | ⟨file, rfl, hthrows⟩
    · exact .order hreaches hunshown
    · obtain ⟨t, hleads, hadmits, hthrows⟩ := throwsAt_importDeclared_iff.mp hthrows
      rcases hthrows with ⟨hkind, contents, rest, hread, hparse⟩ | ⟨hkind, load, hload, hfails⟩
      · exact .number hreaches hleads hkind hadmits hread hparse
      · cases levels with
        | zero => cases hload
        | succ levels =>
          cases hload
          obtain ⟨contents, hread, hinner⟩ := loadSource_throws_iff.mp hfails
          exact .inside hreaches hleads hkind hadmits hread (ih levels (Nat.lt_succ_self _) hinner)

theorem Aborts.buildThrows {levels : Nat} (h : Aborts tree levels path source session) :
    BuildThrows ⟨tree, path, loader tree levels⟩ source (.opening path session) := by
  induction h with
  | order reaches unshown =>
    exact buildThrows_iff_reaches.mpr
      ⟨_, _, _, reaches, throwsAt_addDeclaration_iff.mpr (.inl unshown)⟩
  | number reaches leads kind admits content large =>
    refine buildThrows_iff_reaches.mpr
      ⟨_, _, _, reaches, throwsAt_addDeclaration_iff.mpr (.inr ⟨_, rfl, ?_⟩)⟩
    exact throwsAt_importDeclared_iff.mpr ⟨_, leads, admits, .inl ⟨kind, _, _, content, large⟩⟩
  | inside reaches leads kind admits content _ ih =>
    refine buildThrows_iff_reaches.mpr
      ⟨_, _, _, reaches, throwsAt_addDeclaration_iff.mpr (.inr ⟨_, rfl, ?_⟩)⟩
    exact throwsAt_importDeclared_iff.mpr ⟨_, leads, admits,
      .inr ⟨kind, _, rfl, loadSource_throws_iff.mpr ⟨_, content, ih⟩⟩⟩

end Sources

section Endings

variable {α β : Type}

theorem ending_eq_aborted_iff {c : Compilation α} :
    c.ending = .aborted ↔ ∃ ds, c.result = .error ds ∧ ds.any Diagnostic.isFault = true := by
  unfold ending
  cases c.result with
  | ok a => simp
  | error ds =>
    dsimp only
    split <;> simp_all

@[simp]
theorem ending_map_eq_aborted_iff {f : α → β} {c : Compilation α} :
    (c.map f).ending = .aborted ↔ c.ending = .aborted := by
  simp only [ending_eq_aborted_iff, map]
  cases c.result <;> simp [Except.map]

end Endings

end Compilation

namespace Project

open Compilation Build

/-- The compilation of a project is broken off. -/
def Aborts (x : Project) : Prop :=
  Compilation.Aborts x.tree Session.maxDepth x.path x.source x.session

/-- Nothing is returned exactly if the compilation is broken off. -/
theorem ending_root_eq_aborted_iff (x : Project) :
    (Compilation.root x.tree x.searchDirectories x.source x.path).ending = .aborted ↔
      x.Aborts := by
  have haborts : x.Aborts ↔ BuildThrows ⟨x.tree, x.path, loader x.tree Session.maxDepth⟩ x.source
      (.opening x.path x.session) := ⟨Aborts.buildThrows, aborts_of_buildThrows⟩
  rw [haborts, root_eq, BuildThrows]
  split
  · next f s' hr => simp [hr, ending_eq_aborted_iff]
  · next idl s' hr =>
    have htold : ∀ ds, finish s'.registry idl = .error ds → ∀ d ∈ ds, d.isFault = false :=
      fun ds hds d hd => (isTold_of_finish hds d hd).caught
    simpa [hr, ending_eq_aborted_iff] using htold

end Project

end AvroIdl
