import AvroIdl.Proofs.CanonicalPath
import AvroIdl.Proofs.Gathering

/-!
# The walk of a build through the import graph

A build that succeeds goes through the declarations of its source, and on the way through those of
every source that it loads. `Gathers` tells this in terms of the import graph alone: which files
are loaded, in this order, and what is gained from them. Every successful build is such a walk, so
what is said about the outcome of imports is proved by induction on walks.
-/
namespace AvroIdl

open Import (Target)

namespace Build

variable {s s' : State}

theorem context?_of_scopeOf {file : Text} {space : Option Identifier} {scope : Scope}
    {w : List Diagnostic} (main : Option TypeNode) (ds : List Declaration) (orphans : List Span)
    (h : ((scopeOf { file := file } space).run w).1 = .ok scope) :
    SourceUnit.context? file ⟨.schemas space main ds, orphans⟩ = some ⟨file, scope⟩ := by
  cases space with
  | none =>
    cases h
    rfl
  | some i =>
    unfold scopeOf at h
    simp only [SourceUnit.context?]
    by_cases hvalid : Name.isValidNamespace i.text = true
    · simp only [hvalid, if_true] at h ⊢
      cases h
      rfl
    · simp only [hvalid] at h
      cases h

theorem context?_of_declaredName {file : Text} {p : ProtocolDecl} {set : AnnotationSet}
    {q : QualifiedName} (orphans : List Span)
    (hset : AnnotationSet.collect file { space := true } p.annotations = .ok set)
    (hq : declaredName { file := file } p.name set = .ok q) :
    SourceUnit.context? file ⟨.protocol p, orphans⟩ = some ⟨file, .of q.space⟩ := by
  change declaredName { file := file, scope := .of none } p.name set = .ok q at hq
  simp only [SourceUnit.context?, hset]
  simp only [bind, Except.bind, hq]
  rfl

/-- The declarations of a unit that was built stand in a legal scope and have been added one after
another. Only a protocol keeps its messages. -/
theorem addUnit_eq_ok {file : Text} {i : Option Imports} {u : SourceUnit} {idl : IdlFile}
    (h : (addUnit file i u).run s = (.ok idl, s')) :
    ∃ c s₁ s₂, u.context? file = some c ∧ s₁.stock = s.stock ∧
      (addDeclarations c i u.isProtocol u.declarations).run s₁ = (.ok ⟨⟩, s₂) ∧
      s'.stock = s₂.stock ∧
      (Compilation.Root.messages idl).map (·.name) = carried u.isProtocol s'.stock.messages := by
  obtain ⟨_, s₀, hwarn, h⟩ := bind_run_eq_ok h
  have hs₀ := (reported_eq_ok hwarn).2
  obtain ⟨body, orphans⟩ := u
  cases body with
  | protocol d =>
    dsimp only at h
    obtain ⟨set, s₁, hset, h⟩ := bind_run_eq_ok h
    obtain ⟨q, s₂, hq, h⟩ := bind_run_eq_ok h
    obtain ⟨_, s₃, hadd, h⟩ := bind_run_eq_ok h
    obtain ⟨hset, hs₁⟩ := reported_ofExcept_eq_ok hset
    obtain ⟨hq, hs₂⟩ := reported_ofExcept_eq_ok hq
    cases h
    exact ⟨_, s₂, s', context?_of_declaredName orphans hset hq, hs₂.trans (hs₁.trans hs₀), hadd,
      rfl, rfl⟩
  | schemas space main ds =>
    obtain ⟨scope, s₁, hscope, h⟩ := bind_run_eq_ok h
    obtain ⟨_, s₂, hadd, h⟩ := bind_run_eq_ok h
    obtain ⟨hscope, hs₁⟩ := reported_eq_ok hscope
    have hcontext := context?_of_scopeOf main ds orphans hscope
    cases main with
    | none =>
      cases h
      exact ⟨_, s₁, s', hcontext, hs₁.trans hs₀, hadd, rfl, rfl⟩
    | some type =>
      obtain ⟨schema, s₃, htype, h⟩ := bind_run_eq_ok h
      cases h
      exact ⟨_, s₁, s₂, hcontext, hs₁.trans hs₀, hadd, (reported_eq_ok htype).2, rfl⟩

end Build

namespace Compilation

open Build

variable {s s' : State}

theorem buildSource_eq_ok {i : Imports} {source : Text} {idl : IdlFile}
    (h : buildSource i source s = (.ok idl, s')) :
    ∃ u, treeOf source i.importer.text = .ok u ∧
      (addUnit i.importer.text (some i) u).run s = (.ok idl, s') := by
  unfold buildSource at h
  dsimp only at h
  split at h
  · cases h
  · next u hu =>
    split at h
    · next he =>
      cases h
      exact ⟨u, hu, he⟩
    · cases h

/-- A source that was loaded could be read and built, and hands over what it gathered. -/
theorem loadSource_eq_none {tree : FileTree} {inner : Option Loader} {path : Path}
    {session : Session} (h : (loadSource tree inner path session).failure = none) :
    ∃ source idl s', tree.read? path = some source ∧
      buildSource ⟨tree, path, inner⟩ source (.opening path session) = (.ok idl, s') ∧
      (loadSource tree inner path session).state = { s' with messages := Root.messages idl } := by
  unfold loadSource at h ⊢
  dsimp only at h ⊢
  split at h
  · cases h
  · next source hread =>
    have hopening : State.opening path session =
        { registry := { file := path.text }, session := session } := rfl
    rw [← hopening] at h ⊢
    rcases hbuild : buildSource ⟨tree, path, inner⟩ source (.opening path session)
      with ⟨result, s'⟩
    rw [hbuild] at h
    cases result with
    | error f => cases f <;> cases h
    | ok idl =>
      refine ⟨source, idl, s', hread, hbuild, ?_⟩
      obtain ⟨content, names⟩ := idl
      cases content <;> rfl

end Compilation

namespace Project

open Build Compilation

/-- Declarations of the file at a path are added in a session; the files in the list are loaded on
the way, and the session, types and messages are gained. -/
inductive Gathers (x : Project) : Path → Context → Bool → List Declaration → Session →
    List Target → Stock → Prop
  | nil {p : Path} {c : Context} {inProtocol : Bool} {session : Session} :
    Gathers x p c inProtocol [] session [] ⟨session, [], []⟩
  | type {p : Path} {c : Context} {inProtocol : Bool} {session : Session} {d : Declaration}
    {name : Text} {ds : List Declaration} {loads : List Target} {gain : Stock}
    (named : d.typeName? c = some name) (rest : Gathers x p c inProtocol ds session loads gain) :
    Gathers x p c inProtocol (d :: ds) session loads { gain with types := name :: gain.types }
  | message {p : Path} {c : Context} {inProtocol : Bool} {session : Session} {m : MessageDecl}
    {ds : List Declaration} {loads : List Target} {gain : Stock}
    (rest : Gathers x p c inProtocol ds session loads gain) :
    Gathers x p c inProtocol (.message m :: ds) session loads
      { gain with messages := m.name.text :: gain.messages }
  /-- A file that has been visited is not loaded again. -/
  | known {p : Path} {c : Context} {inProtocol : Bool} {session : Session} {d : ImportDecl}
    {t : Target} {ds : List Declaration} {loads : List Target} {gain : Stock}
    (leads : x.target? p d = some t) (closed : session.isInProgress t.path = false)
    (visited : session.isVisited t.path = true)
    (rest : Gathers x p c inProtocol ds session loads gain) :
    Gathers x p c inProtocol (.file d :: ds) session loads gain
  | document {p : Path} {c : Context} {inProtocol : Bool} {session : Session} {d : ImportDecl}
    {t : Target} {document : Document} {ds : List Declaration} {loads : List Target}
    {gain : Stock}
    (leads : x.target? p d = some t) (kind : t.kind ≠ .idl) (admits : session.Admits t.path)
    (content : Import.document? x.tree t = some document)
    (rest : Gathers x p c inProtocol ds (session.markVisited t.path) loads gain) :
    Gathers x p c inProtocol (.file d :: ds) session (t :: loads)
      ⟨gain.session, document.types.map Schema.full ++ gain.types,
        carried inProtocol (document.messages.map (·.name)) ++ gain.messages⟩
  | source {p : Path} {c c' : Context} {inProtocol : Bool} {session : Session} {d : ImportDecl}
    {t : Target} {u : SourceUnit} {ds : List Declaration} {inside loads : List Target}
    {inner gain : Stock}
    (leads : x.target? p d = some t) (kind : t.kind = .idl) (admits : session.Admits t.path)
    (unit : x.unit? t.path = some u) (context : u.context? (x.importer t.path).text = some c')
    (within : Gathers x t.path c' u.isProtocol u.declarations
      ((session.markVisited t.path).enter t.path) inside inner)
    (rest : Gathers x p c inProtocol ds inner.session.leave loads gain) :
    Gathers x p c inProtocol (.file d :: ds) session (t :: inside ++ loads)
      ⟨gain.session, inner.types ++ gain.types,
        carried inProtocol (carried u.isProtocol inner.messages) ++ gain.messages⟩

variable {x : Project} {p : Path} {c : Context} {inProtocol : Bool}

/-- Where an import declaration of a file leads, in any session of the project. -/
theorem target?_of_session {session : Session}
    (h : session.searchDirectories = x.searchDirectories) (d : ImportDecl) :
    Import.target? x.tree session.searchDirectories (x.importer p) d = x.target? p d := by
  rw [h, target?]

/-- Imports lead to files. -/
theorem plain_of_target? (ht : x.tree.Placed) {d : ImportDecl} {t : Target}
    (h : x.target? p d = some t) : t.path.plain = t.path := by
  unfold target? Import.target? at h
  split at h
  · obtain ⟨found, hfound, rfl⟩ := Option.map_eq_some_iff.mp h
    exact FileTree.plain_canonical ht (List.find?_some hfound)
  · cases h

/-- A closed file is not the source of the project as long as that is open. -/
theorem ne_root_of_closed {session : Session} {q : Path} (hq : q.plain = q)
    (hroot : x.root ∈ session.stack) (h : session.isInProgress q = false) : q ≠ x.root := by
  rintro rfl
  rw [Session.isInProgress, hq] at h
  simp [hroot] at h

/-- A source that is loaded for an import is built with its declarations. -/
theorem exists_unit_of_load {q : Path} (hq : q ≠ x.root) {inner : Option Loader}
    {session : Session} (h : (loadSource x.tree inner q session).failure = none) :
    ∃ u c s₁ s₂, x.unit? q = some u ∧ u.context? (x.importer q).text = some c ∧
      s₁.stock = ⟨session, [], []⟩ ∧
      (addDeclarations c (some ⟨x.tree, x.importer q, inner⟩) u.isProtocol u.declarations).run s₁ =
        (.ok ⟨⟩, s₂) ∧
      (loadSource x.tree inner q session).state.stock =
        { s₂.stock with messages := carried u.isProtocol s₂.stock.messages } := by
  obtain ⟨source, idl, s', hread, hbuild, hstate⟩ := loadSource_eq_none h
  obtain ⟨u, htree, hunit⟩ := buildSource_eq_ok hbuild
  obtain ⟨c, s₁, s₂, hc, hs₁, hadd, hs', hmessages⟩ := addUnit_eq_ok hunit
  have himporter : x.importer q = q := if_neg hq
  have hsource : x.unit? q = some u := by
    simp only [unit?, source?, if_neg hq, hread, Option.bind_some, himporter]
    rw [htree]
    rfl
  refine ⟨u, c, s₁, s₂, hsource, himporter.symm ▸ hc, hs₁, himporter.symm ▸ hadd, ?_⟩
  rw [hstate]
  simp only [State.stock] at hs' hmessages ⊢
  injection hs' with hsession htypes hmessages'
  rw [hmessages, hsession, htypes, hmessages']

/-- Every source that is loaded in a session in which the source of the project is open is walked
through. -/
def Walks (x : Project) (l : Option Loader) : Prop :=
  ∀ load, l = some load → ∀ (q : Path) (session : Session), q ≠ x.root →
    session.searchDirectories = x.searchDirectories → x.root ∈ session.stack →
    (load q session).failure = none →
    ∃ u c loads gain, x.unit? q = some u ∧ u.context? (x.importer q).text = some c ∧
      x.Gathers q c u.isProtocol u.declarations session loads gain ∧
      (load q session).state.stock =
        { gain with messages := carried u.isProtocol gain.messages }

/-- Declarations that are added are walked through if the sources are that they load. -/
theorem Walks.gathers {l : Option Loader} (hl : x.Walks l)
    (hcontinue : ∀ path, Imports.Continue ⟨x.tree, path, l⟩) (ht : x.tree.Placed)
    {ds : List Declaration} {s s' : State}
    (hdirectories : s.session.searchDirectories = x.searchDirectories)
    (hroot : x.root ∈ s.session.stack)
    (h : (addDeclarations c (some ⟨x.tree, x.importer p, l⟩) inProtocol ds).run s = (.ok ⟨⟩, s')) :
    ∃ loads gain, x.Gathers p c inProtocol ds s.session loads gain ∧
      s'.stock = ⟨gain.session, s.stock.types ++ gain.types,
        s.stock.messages ++ gain.messages⟩ := by
  induction ds generalizing s with
  | nil =>
    cases h
    exact ⟨[], _, .nil, by simp [State.stock]⟩
  | cons d ds ih =>
    obtain ⟨_, s₁, hone, hrest⟩ := bind_run_eq_ok h
    have hcontinues := continues_of_addDeclaration (hcontinue (x.importer p)) hone
    obtain ⟨loads, gain, hwalk, hstock⟩ := ih (hcontinues.directories.trans hdirectories)
      (hcontinues.stack ▸ hroot) hrest
    rcases addDeclaration_eq_ok hone with ⟨name, hname, hs₁⟩ | ⟨m, rfl, hs₁⟩ |
      ⟨file, t, added, rfl, hleads, hgains, hs₁⟩
    · rw [show s₁.session = s.session from congrArg Stock.session hs₁] at hwalk
      exact ⟨loads, _, .type hname hwalk, by simp [hstock, hs₁]⟩
    · rw [show s₁.session = s.session from congrArg Stock.session hs₁] at hwalk
      exact ⟨loads, _, .message hwalk, by simp [hstock, hs₁]⟩
    · rw [target?_of_session hdirectories] at hleads
      rw [show s₁.session = added.session from congrArg Stock.session hs₁] at hwalk
      cases hgains with
      | known closed visited =>
        exact ⟨loads, _, .known hleads closed visited hwalk, by simp [hstock, hs₁, carried]⟩
      | document kind admits content =>
        exact ⟨_, _, .document hleads kind admits content hwalk, by simp [hstock, hs₁]⟩
      | source kind admits loader load_eq success =>
        subst load_eq
        have hopen : s.session.Continues (s.session.markVisited t.path) :=
          Session.continues_markVisited _ _
        obtain ⟨u, c', inside, inner, hunit, hcontext, hinside, hloaded⟩ :=
          hl _ loader t.path ((s.session.markVisited t.path).enter t.path)
            (ne_root_of_closed (plain_of_target? ht hleads) hroot admits.closed)
            (hopen.directories.trans hdirectories) (by simp [Session.enter, hroot]) success
        have hsession := congrArg Stock.session hloaded
        simp only [State.stock] at hsession
        rw [hsession] at hwalk
        refine ⟨_, _, .source hleads kind admits hunit hcontext hinside hwalk, ?_⟩
        simp [hstock, hs₁, hloaded]

theorem walks_loader (ht : x.tree.Placed) (levels : Nat) : x.Walks (loader x.tree levels) := by
  induction levels with
  | zero =>
    intro load hload
    cases hload
  | succ levels ih =>
    intro load hload q session hq hdirectories hroot hnone
    cases hload
    obtain ⟨u, c, s₁, s₂, hunit, hcontext, hs₁, hadd, hloaded⟩ := exists_unit_of_load hq hnone
    obtain rfl : s₁.session = session := congrArg Stock.session hs₁
    obtain ⟨loads, gain, hwalk, hs₂⟩ :=
      ih.gathers (loader_continues x.tree levels) ht hdirectories hroot hadd
    refine ⟨u, c, loads, gain, hunit, hcontext, hwalk, ?_⟩
    simp [hloaded, hs₂, hs₁]

theorem root_eq (x : Project) :
    Compilation.root x.tree x.searchDirectories x.source x.path =
      match buildSource ⟨x.tree, x.path, loader x.tree Session.maxDepth⟩ x.source
        (.opening x.path x.session) with
      | (.error f, s) => ⟨s.warnings, .error f.diagnostics⟩
      | (.ok file, s) => ⟨s.warnings, finish s.registry file⟩ := rfl

/-- A compilation that succeeds walks through its source, and the unit has the types and the
messages that are gained. -/
theorem exists_walk_of_root (ht : x.tree.Placed) {unit : Compilation.Root}
    (h : (Compilation.root x.tree x.searchDirectories x.source x.path).result = .ok unit) :
    ∃ u c loads gain, x.unit? x.root = some u ∧ u.context? x.path.text = some c ∧
      x.Gathers x.root c u.isProtocol u.declarations x.session loads gain ∧
      unit.registry.names = gain.types ∧
      (Compilation.Root.messages unit.file).map (·.name) =
        carried u.isProtocol gain.messages := by
  have hroot : x.importer x.root = x.path := if_pos rfl
  rw [root_eq] at h
  split at h
  · cases h
  · next idl s' hbuild =>
    obtain ⟨-, -, rfl⟩ := finish_eq_ok h
    obtain ⟨u, htree, hunit⟩ := buildSource_eq_ok hbuild
    obtain ⟨c, s₁, s₂, hc, hs₁, hadd, hs', hmessages⟩ := addUnit_eq_ok hunit
    have hsource : x.unit? x.root = some u := by
      simp only [unit?, source?, if_true, Option.bind_some, hroot]
      rw [htree]
      rfl
    rw [← hroot] at hadd
    have hsession : s₁.session = x.session := congrArg Stock.session hs₁
    obtain ⟨loads, gain, hwalk, hs₂⟩ := (walks_loader ht Session.maxDepth).gathers
      (loader_continues x.tree Session.maxDepth) ht
      (by rw [hsession, session, (Session.continues_markVisited _ _).directories]; rfl)
      (by simp [hsession, session, root, Session.enter]) hadd
    rw [hsession] at hwalk
    rw [hs₁] at hs₂
    have hstock : s'.stock = ⟨gain.session, gain.types, gain.messages⟩ := hs'.trans hs₂
    refine ⟨u, c, loads, gain, hsource, hc, hwalk, ?_, ?_⟩
    · rw [Registry.names_resolveAll]
      exact congrArg Stock.types hstock
    · rw [(Root.content_resolved _ _ _).1]
      simp only [hstock] at hmessages
      rw [← hmessages]
      simp [Registry.resolveAll, Message.bindAll, Function.comp_def]

end Project

end AvroIdl
