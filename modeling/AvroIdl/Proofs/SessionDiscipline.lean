import AvroIdl.Proofs.ImportGraph
import AvroIdl.Proofs.Provenance
import Mathlib.Logic.Function.Basic

/-!
# The discipline of an import session

Whatever a build imports, and however it ends, the chain of the session is afterwards what it was
before, and no visited file is forgotten. A file is marked and opened only by an import that finds
it neither open nor visited and the chain short enough. So the files of the chain are visited ones,
no two of them are the same, and there are at most 64; and the number of levels for which a loader
is made does not matter as long as it reaches that.

Whether a run opens a file is told from outside: the file is opened in a session if it makes a
difference to the run what the loader gives there.
-/
namespace AvroIdl

namespace SourceUnit

/-- The unit with only its first declarations, and without its main schema. -/
def upTo (u : SourceUnit) (count : Nat) : SourceUnit :=
  match u.body with
  | .protocol d => { u with body := .protocol { d with body := d.body.take count } }
  | .schemas space _ ds => { u with body := .schemas space none (ds.take count) }

end SourceUnit

namespace Session

/-- What holds of the session of a compilation at all times. -/
structure Disciplined (s : Session) : Prop where
  distinct : s.stack.Nodup
  visited : s.stack ⊆ s.visited
  depth_le : s.depth ≤ maxDepth

/-- A file that is neither open nor visited, with room for one more in the chain. -/
structure Admits (s : Session) (p : Path) : Prop where
  closed : s.isInProgress p = false
  new : s.isVisited p = false
  depth_lt : s.depth < maxDepth

/-- A later session with the same chain, in which more files may have been visited. -/
structure Continues (s s' : Session) : Prop where
  directories : s'.searchDirectories = s.searchDirectories
  stack : s'.stack = s.stack
  visited : s.visited ⊆ s'.visited

theorem continues_refl (s : Session) : s.Continues s := ⟨rfl, rfl, fun _ h => h⟩

theorem Continues.trans {s s' s'' : Session} (h : s.Continues s') (h' : s'.Continues s'') :
    s.Continues s'' :=
  ⟨h'.directories.trans h.directories, h'.stack.trans h.stack,
    fun _ hp => h'.visited (h.visited hp)⟩

theorem visited_markVisited {s : Session} {p : Path} (h : s.isVisited p = false) :
    (s.markVisited p).visited = p.plain :: s.visited := by
  simp [markVisited, h]

theorem continues_markVisited (s : Session) (p : Path) : s.Continues (s.markVisited p) := by
  unfold markVisited
  split
  · exact continues_refl s
  · exact ⟨rfl, rfl, fun _ h => List.mem_cons_of_mem _ h⟩

@[simp]
theorem stack_markVisited (s : Session) (p : Path) : (s.markVisited p).stack = s.stack :=
  (continues_markVisited s p).stack

/-- What continues the session of an opened file continues the session before, once the file is
left. -/
theorem Continues.leave {s t : Session} {p : Path} (h : (s.enter p).Continues t) :
    s.Continues t.leave := by
  refine ⟨h.directories, ?_, h.visited⟩
  rw [Session.leave, h.stack]
  simp [enter]

theorem Disciplined.continues {s s' : Session} (hs : s.Disciplined) (h : s.Continues s') :
    s'.Disciplined := by
  refine ⟨h.stack ▸ hs.distinct, ?_, ?_⟩
  · rw [h.stack]
    exact fun p hp => h.visited (hs.visited hp)
  · rw [depth, h.stack]
    exact hs.depth_le

/-- A file that the session admits may be marked and opened. -/
theorem Disciplined.open_of_admits {s : Session} {p : Path} (hs : s.Disciplined)
    (ha : s.Admits p) : ((s.markVisited p).enter p).Disciplined := by
  have hstack : ((s.markVisited p).enter p).stack = s.stack ++ [p.plain] := by simp [enter]
  have hmark : p.plain ∈ (s.markVisited p).visited := by simp [visited_markVisited ha.new]
  have hclosed : p.plain ∉ s.stack := by simpa [isInProgress] using ha.closed
  refine ⟨?_, ?_, ?_⟩
  · rw [hstack, List.nodup_append]
    refine ⟨hs.distinct, by simp, ?_⟩
    rintro q hq q' hq' rfl
    exact hclosed (List.mem_singleton.mp hq' ▸ hq)
  · rw [hstack]
    intro q hq
    rcases List.mem_append.mp hq with hq | hq
    · exact (continues_markVisited s p).visited (hs.visited hq)
    · exact List.mem_singleton.mp hq ▸ hmark
  · have hlt := ha.depth_lt
    rw [depth] at hlt ⊢
    rw [hstack, List.length_append, List.length_singleton]
    omega

/-- A file is opened, and this is the session in which its source is compiled: the file is added to
the chain of a continuation that admits it. -/
def Opens (s : Session) (p : Path) (t : Session) : Prop :=
  ∃ s', s.Continues s' ∧ s'.Admits p ∧ t = (s'.markVisited p).enter p

section Opens

variable {s s' t : Session} {p : Path}

theorem Continues.opens (h : s.Continues s') (ho : s'.Opens p t) : s.Opens p t := by
  obtain ⟨s'', hcontinues, hadmits, rfl⟩ := ho
  exact ⟨s'', h.trans hcontinues, hadmits, rfl⟩

theorem Disciplined.opens (hs : s.Disciplined) (ho : s.Opens p t) :
    t.Disciplined ∧ s.visited ⊆ t.visited := by
  obtain ⟨s', hcontinues, hadmits, rfl⟩ := ho
  exact ⟨(hs.continues hcontinues).open_of_admits hadmits,
    (hcontinues.trans (continues_markVisited s' p)).visited⟩

theorem Opens.depth_lt (h : s.Opens p t) : s.depth < maxDepth := by
  obtain ⟨s', hcontinues, hadmits, -⟩ := h
  have hlt := hadmits.depth_lt
  rwa [depth, hcontinues.stack] at hlt

theorem Opens.depth_eq (h : s.Opens p t) : t.depth = s.depth + 1 := by
  obtain ⟨s', hcontinues, -, rfl⟩ := h
  simp [depth, enter, hcontinues.stack]

/-- When the opened file is left, the chain is the one from before. -/
theorem Opens.leave (h : s.Opens p t) : s.Continues t.leave := by
  obtain ⟨s', hcontinues, -, rfl⟩ := h
  rw [leave_enter]
  exact hcontinues.trans (continues_markVisited s' p)

end Opens

end Session

namespace Build

open Session (Continues)

/-- Run in the state, the computation ends with a session that continues the one of the state. -/
def ContinuesAt {α : Type} (s : State) (x : Assembly α) : Prop :=
  s.session.Continues (x.run s).2.session

section Step

variable {tree : FileTree} {importer : Path} {i : Imports} {d : ImportDecl} {location : Text}
  {found : Path} {s : State}

/-- A file that the session admits is marked and then taken in. -/
theorem importFile_of_admits
    (hfound : Import.locate? i.tree i.importer s.session.searchDirectories location = some found)
    (hadmits : s.session.Admits (i.tree.canonical found)) :
    (importFile i d location).run s =
      (if d.kind = .idl then importSource i d (i.tree.canonical found)
        else importDocument i d (i.tree.canonical found)).run
          { s with session := s.session.markVisited (i.tree.canonical found) } := by
  have hdepth : ¬Session.maxDepth ≤ s.session.depth := Nat.not_le.mpr hadmits.depth_lt
  unfold importFile
  rw [get_bind_run]
  simp only [hfound, hadmits.closed, hadmits.new, hdepth, Bool.false_eq_true, if_false]
  rfl

/-- What becomes of an import whose file the session does not admit: it says what is wrong, or the
file is there already. -/
inductive Dismisses (tree : FileTree) (importer : Path) (d : ImportDecl) (location : Text)
    (session : Session) : Except Diagnostic Unit → Prop
  | absent (missing : Import.locate? tree importer session.searchDirectories location = none) :
    Dismisses tree importer d location session (.error
      ((Import.Problem.notFound d.kind location session.searchDirectories).diagnostic importer
        d.span))
  | cyclic {found : Path}
    (located : Import.locate? tree importer session.searchDirectories location = some found)
    (entered : session.isInProgress (tree.canonical found) = true) :
    Dismisses tree importer d location session (.error
      ((Import.Problem.cycle (session.describeChain (tree.canonical found))).diagnostic importer
        d.span))
  | known {found : Path}
    (located : Import.locate? tree importer session.searchDirectories location = some found)
    (closed : session.isInProgress (tree.canonical found) = false)
    (visited : session.isVisited (tree.canonical found) = true) :
    Dismisses tree importer d location session (.ok ⟨⟩)
  | deep {found : Path}
    (located : Import.locate? tree importer session.searchDirectories location = some found)
    (full : Session.maxDepth ≤ session.depth) :
    Dismisses tree importer d location session (.error
      ((Import.Problem.tooDeep (session.describeChain (tree.canonical found))).diagnostic importer
        d.span))

/-- Such an import changes nothing, whatever could be loaded. -/
theorem importFile_of_not_admits
    (h : ∀ found, Import.locate? tree importer s.session.searchDirectories location = some found →
      ¬s.session.Admits (tree.canonical found)) :
    ∃ result, Dismisses tree importer d location s.session result ∧
      ∀ l, (importFile ⟨tree, importer, l⟩ d location).run s = (result, s) := by
  have hrun (l : Option Loader) : (importFile ⟨tree, importer, l⟩ d location).run s = _ :=
    get_bind_run _ _
  simp only [hrun]
  split
  · next hmissing => exact ⟨_, .absent hmissing, fun _ => rfl⟩
  · next found hfound =>
    split
    · next hentered => exact ⟨_, .cyclic hfound hentered, fun _ => rfl⟩
    · next hclosed =>
      rw [Bool.not_eq_true] at hclosed
      split
      · next hvisited => exact ⟨_, .known hfound hclosed hvisited, fun _ => rfl⟩
      · next hnew =>
        rw [Bool.not_eq_true] at hnew
        split
        · next hfull => exact ⟨_, .deep hfound hfull, fun _ => rfl⟩
        · next hdepth => exact absurd ⟨hclosed, hnew, Nat.lt_of_not_le hdepth⟩ (h found hfound)

/-- The step of an import: the file is admitted, or nothing changes. -/
theorem importFile_cases (tree : FileTree) (importer : Path) (d : ImportDecl) (location : Text)
    (s : State) :
    (∃ found, Import.locate? tree importer s.session.searchDirectories location = some found ∧
      s.session.Admits (tree.canonical found)) ∨
      ∃ result, Dismisses tree importer d location s.session result ∧
        ∀ l, (importFile ⟨tree, importer, l⟩ d location).run s = (result, s) := by
  by_cases hadmits : ∃ found,
      Import.locate? tree importer s.session.searchDirectories location = some found ∧
        s.session.Admits (tree.canonical found)
  · exact .inl hadmits
  · exact .inr (importFile_of_not_admits fun found hfound h => hadmits ⟨found, hfound, h⟩)

end Step

section Continues

variable {α β : Type} {s : State}

theorem ContinuesAt.bind {x : Assembly α} {f : α → Assembly β} (hx : ContinuesAt s x)
    (hf : ∀ a s', x.run s = (.ok a, s') → ContinuesAt s' (f a)) : ContinuesAt s (x >>= f) := by
  unfold ContinuesAt at hx ⊢
  rcases hr : x.run s with ⟨result, s'⟩
  rw [hr] at hx
  cases result with
  | ok a =>
    rw [bind_run_of_ok hr]
    exact hx.trans (hf a s' hr)
  | error e =>
    rw [bind_run_of_error hr]
    exact hx

theorem continuesAt_pure (a : α) : ContinuesAt s (pure a) := Session.continues_refl _

theorem continuesAt_throw (e : Diagnostic) : ContinuesAt s (throw e : Assembly α) :=
  Session.continues_refl _

theorem continuesAt_set {s' : State} (h : s.session.Continues s'.session) :
    ContinuesAt s (set s' : Assembly PUnit) := h

theorem continuesAt_get {f : State → Assembly β} (h : ContinuesAt s (f s)) :
    ContinuesAt s (get >>= f) := h

theorem continuesAt_set_bind {s' : State} {f : PUnit → Assembly β}
    (h : s.session.Continues s'.session) (hf : ContinuesAt s' (f ⟨⟩)) :
    ContinuesAt s (set s' >>= f) :=
  .bind (continuesAt_set h) fun _ _ he => by
    cases he
    exact hf

theorem continuesAt_reported (r : Report α) : ContinuesAt s (reported r) := by
  rw [ContinuesAt, reported_run]
  exact Session.continues_refl _

theorem continuesAt_registerNamed (file : Text) (schema : Schema) :
    ContinuesAt s (registerNamed file schema) := by
  refine continuesAt_get ?_
  split
  · exact continuesAt_set (Session.continues_refl _)
  · exact continuesAt_throw _

theorem continuesAt_mergeImport (i : Imports) (d : ImportDecl) (path : Path)
    (types : List Registry.Entry) (messages : List Message) :
    ContinuesAt s (mergeImport i d path types messages) := by
  refine continuesAt_get (continuesAt_set_bind (Session.continues_refl _) ?_)
  split
  · exact continuesAt_throw _
  · exact continuesAt_pure _

theorem continuesAt_importDocument (i : Imports) (d : ImportDecl) (path : Path) :
    ContinuesAt s (importDocument i d path) := by
  rcases importDocument_eq i d path with ⟨document, -, heq⟩ | ⟨p, -, heq⟩
  · rw [heq]
    exact continuesAt_mergeImport i d path _ _
  · rw [heq]
    exact continuesAt_throw _

/-- Loading, if there is any, continues the session that it is given. -/
def Imports.Continue (i : Imports) : Prop :=
  ∀ load, i.loader = some load → ∀ (path : Path) (session : Session),
    session.Continues (load path session).state.session

variable {i : Imports}

theorem continuesAt_importSource (hi : i.Continue) (d : ImportDecl) (path : Path) :
    ContinuesAt s (importSource i d path) := by
  unfold importSource
  split
  · exact continuesAt_throw _
  · next load hload =>
    refine continuesAt_get (continuesAt_set_bind (hi load hload path _).leave ?_)
    split
    · exact continuesAt_throw _
    · exact continuesAt_mergeImport i d path _ _

/-- What a file is taken in with, once it has been marked. -/
theorem continuesAt_takeIn (hi : i.Continue) (d : ImportDecl) (path : Path) :
    ContinuesAt s (if d.kind = .idl then importSource i d path else importDocument i d path) := by
  split
  · exact continuesAt_importSource hi d path
  · exact continuesAt_importDocument i d path

theorem continuesAt_importFile (hi : i.Continue) (d : ImportDecl) (location : Text) :
    ContinuesAt s (importFile i d location) := by
  unfold ContinuesAt
  rcases importFile_cases i.tree i.importer d location s with
    ⟨found, hfound, hadmits⟩ | ⟨result, -, hrun⟩
  · let p := i.tree.canonical found
    have htaken := continuesAt_takeIn (s := { s with session := s.session.markVisited p }) hi d p
    rw [importFile_of_admits hfound hadmits]
    exact (Session.continues_markVisited s.session p).trans htaken
  · rw [hrun i.loader]
    exact Session.continues_refl _

variable {imports : Option Imports}

theorem continuesAt_importDeclared (hi : ∀ i ∈ imports, i.Continue) (c : Context)
    (inProtocol : Bool) (d : ImportDecl) :
    ContinuesAt s (importDeclared c imports inProtocol d) := by
  refine .bind (continuesAt_reported _) fun location s' _ => ?_
  split
  · exact continuesAt_reported _
  · next i =>
    refine continuesAt_get (.bind (continuesAt_importFile (hi i rfl) d location) fun _ s'' _ => ?_)
    split
    · exact continuesAt_get (continuesAt_set (Session.continues_refl _))
    · exact continuesAt_pure _

theorem continuesAt_addMessage (c : Context) (d : MessageDecl) :
    ContinuesAt s (addMessage c d) := by
  refine .bind (continuesAt_reported _) fun message s' _ => continuesAt_get ?_
  split
  · exact continuesAt_reported _
  · exact continuesAt_set (Session.continues_refl _)

theorem continuesAt_addDeclaration (hi : ∀ i ∈ imports, i.Continue) (c : Context)
    (inProtocol : Bool) (d : Declaration) :
    ContinuesAt s (addDeclaration c imports inProtocol d) := by
  have hregister (r : Report Schema) : ContinuesAt s (reported r >>= registerNamed c.file) :=
    .bind (continuesAt_reported r) fun schema _ _ => continuesAt_registerNamed c.file schema
  cases d with
  | file d => exact continuesAt_importDeclared hi c inProtocol d
  | record d => exact hregister _
  | enum d => exact hregister _
  | fixed d => exact hregister _
  | message d => exact continuesAt_addMessage c d

/-- However a declaration with imports ends, the session continues the one before. -/
theorem continues_of_addDeclaration (hi : i.Continue) {c : Context} {inProtocol : Bool}
    {d : Declaration} {s' : State} {result : Except Diagnostic PUnit}
    (h : (addDeclaration c (some i) inProtocol d).run s = (result, s')) :
    s.session.Continues s'.session := by
  have hcontinues : ContinuesAt s (addDeclaration c (some i) inProtocol d) :=
    continuesAt_addDeclaration (by simpa using hi) c inProtocol d
  rwa [ContinuesAt, h] at hcontinues

theorem continuesAt_addDeclarations (hi : ∀ i ∈ imports, i.Continue) (c : Context)
    (inProtocol : Bool) (ds : List Declaration) :
    ContinuesAt s (addDeclarations c imports inProtocol ds) := by
  induction ds generalizing s with
  | nil => exact continuesAt_pure _
  | cons d ds ih => exact .bind (continuesAt_addDeclaration hi c inProtocol d) fun _ _ _ => ih

theorem continuesAt_addUnit (hi : ∀ i ∈ imports, i.Continue) (file : Text) (u : SourceUnit) :
    ContinuesAt s (addUnit file imports u) := by
  refine .bind (continuesAt_reported _) fun _ s₁ _ => ?_
  split
  · refine .bind (continuesAt_reported _) fun set s₂ _ => ?_
    refine .bind (continuesAt_reported _) fun q s₃ _ => ?_
    refine .bind (continuesAt_addDeclarations hi _ true _) fun _ s₄ _ => ?_
    exact continuesAt_get (continuesAt_pure _)
  · refine .bind (continuesAt_reported _) fun scope s₂ _ => ?_
    refine .bind (continuesAt_addDeclarations hi _ false _) fun _ s₃ _ => ?_
    split
    · exact continuesAt_get (continuesAt_pure _)
    · exact .bind (continuesAt_reported _) fun schema s₄ _ => continuesAt_get (continuesAt_pure _)

end Continues

section Step

variable {tree : FileTree} {importer path : Path} {i : Imports} {d : ImportDecl} {location : Text}
  {found : Path} {s : State}

theorem visited_of_importFile (hi : i.Continue)
    (hfound : Import.locate? i.tree i.importer s.session.searchDirectories location = some found)
    (hadmits : s.session.Admits (i.tree.canonical found)) :
    ((importFile i d location).run s).2.session.isVisited (i.tree.canonical found) = true := by
  let p := i.tree.canonical found
  have hmarked : (s.session.markVisited p).isVisited p = true := by simp
  have htaken := continuesAt_takeIn (s := { s with session := s.session.markVisited p }) hi d p
  rw [importFile_of_admits hfound hadmits]
  rw [Session.isVisited, List.contains_iff_mem] at hmarked ⊢
  exact htaken.visited hmarked

/-- What the loader gives for the path in the session makes a difference to the run. -/
def Consults {β : Type} (run : Loader → β) (load : Loader) (p : Path) (t : Session) : Prop :=
  ∃ loaded, run (Function.update load p (Function.update (load p) t loaded)) ≠ run load

theorem update_loader_of_ne {load : Loader} {p q : Path} {t t' : Session} (loaded : Loaded)
    (h : ¬(q = p ∧ t' = t)) :
    Function.update load p (Function.update (load p) t loaded) q t' = load q t' := by
  by_cases hpath : q = p
  · subst hpath
    rw [Function.update_self, Function.update_of_ne (fun ht => h ⟨rfl, ht⟩)]
  · rw [Function.update_of_ne hpath]

theorem importSource_run (load : Loader) :
    (importSource ⟨tree, importer, some load⟩ d path).run s =
      (match (load path (s.session.enter path)).failure with
        | some failure => throw failure
        | none => mergeImport ⟨tree, importer, some load⟩ d path
            (load path (s.session.enter path)).state.registry.entries
            (load path (s.session.enter path)).state.messages : Assembly Unit).run
        { s with
          session := (load path (s.session.enter path)).state.session.leave
          warnings := s.warnings ++ (load path (s.session.enter path)).state.warnings } := rfl

/-- The directories after the import of a source are those that its loading ends with. -/
theorem directories_importSource (load : Loader) :
    ((importSource ⟨tree, importer, some load⟩ d path).run s).2.session.searchDirectories =
      (load path (s.session.enter path)).state.session.searchDirectories := by
  rw [importSource_run]
  split
  · rfl
  · exact (continuesAt_mergeImport _ d path _ _ : ContinuesAt _ _).directories

/-- The source that an import takes in is loaded once, in the session that has opened it. -/
theorem consults_importSource_iff {load : Loader} {p : Path} {t : Session} :
    Consults (fun load => (importSource ⟨tree, importer, some load⟩ d path).run s) load p t ↔
      p = path ∧ t = s.session.enter path := by
  constructor
  · rintro ⟨loaded, hdiffers⟩
    by_contra hother
    refine hdiffers ?_
    dsimp only
    rw [importSource_run, importSource_run,
      update_loader_of_ne loaded fun h => hother ⟨h.1.symm, h.2.symm⟩]
    rfl
  · rintro ⟨rfl, rfl⟩
    -- a loading that ends with another directory leaves it behind
    let loaded := load p (s.session.enter p)
    let session : Session := { loaded.state.session with
      searchDirectories := ⟨[]⟩ :: loaded.state.session.searchDirectories }
    refine ⟨⟨{ loaded.state with session := session }, loaded.failure⟩, fun hsame => ?_⟩
    have hdirectories := congrArg (·.2.session.searchDirectories) hsame
    simp [directories_importSource, session, loaded] at hdirectories

/-- The step of an import: a file is opened exactly if a source is imported that the session admits,
and then in the session that has marked it and put it at the end of the chain. -/
theorem consults_importFile_iff {load : Loader} {p : Path} {t : Session} :
    Consults (fun load => (importFile ⟨tree, importer, some load⟩ d location).run s) load p t ↔
      d.kind = .idl ∧ s.session.Admits p ∧ t = (s.session.markVisited p).enter p ∧
        ∃ found, Import.locate? tree importer s.session.searchDirectories location = some found ∧
          p = tree.canonical found := by
  by_cases hadmits : ∃ found,
      Import.locate? tree importer s.session.searchDirectories location = some found ∧
        s.session.Admits (tree.canonical found)
  · obtain ⟨found, hfound, hadmits⟩ := hadmits
    have hrun (load : Loader) : (importFile ⟨tree, importer, some load⟩ d location).run s = _ :=
      importFile_of_admits hfound hadmits
    simp only [hrun]
    by_cases hkind : d.kind = .idl
    · simp only [hkind, if_true, true_and]
      rw [consults_importSource_iff]
      constructor
      · rintro ⟨rfl, rfl⟩
        exact ⟨hadmits, rfl, found, hfound, rfl⟩
      · rintro ⟨-, rfl, found', hfound', rfl⟩
        obtain rfl : found = found' := Option.some.inj (hfound.symm.trans hfound')
        exact ⟨rfl, rfl⟩
    · simp only [hkind, if_false, false_and, iff_false]
      exact fun ⟨_, hdiffers⟩ => hdiffers rfl
  · obtain ⟨result, -, hrun⟩ := importFile_of_not_admits (d := d)
      fun found hfound h => hadmits ⟨found, hfound, h⟩
    constructor
    · rintro ⟨loaded, hdiffers⟩
      exact absurd ((hrun _).trans (hrun _).symm) hdiffers
    · rintro ⟨-, h, -, found, hfound, rfl⟩
      exact absurd ⟨found, hfound, h⟩ hadmits

end Step

end Build

namespace Compilation

open Build Session

/-- A build ends with a session that continues its own. -/
theorem buildSource_continues {i : Imports} (hi : i.Continue) (source : Text) (s : State) :
    s.session.Continues (buildSource i source s).2.session := by
  unfold buildSource
  dsimp only
  split
  · exact continues_refl _
  · next u _ =>
    have hunit : ContinuesAt s (addUnit i.importer.text (some i) u) :=
      continuesAt_addUnit (by simpa using hi) _ u
    unfold ContinuesAt at hunit
    split
    · next he =>
      rw [he] at hunit
      exact hunit
    · next he =>
      rw [he] at hunit
      exact hunit

theorem loadSource_continues {tree : FileTree} {inner : Option Loader}
    (hi : ∀ path, Imports.Continue ⟨tree, path, inner⟩) (path : Path) (session : Session) :
    session.Continues (loadSource tree inner path session).state.session := by
  unfold loadSource
  dsimp only
  split
  · exact continues_refl _
  · next source _ =>
    have hbuild := buildSource_continues (hi path) source
      { registry := { file := path.text }, session := session }
    split
    all_goals
      next he =>
        rw [he] at hbuild
        exact hbuild

theorem loader_continues (tree : FileTree) (levels : Nat) (path : Path) :
    Imports.Continue ⟨tree, path, loader tree levels⟩ := by
  induction levels generalizing path with
  | zero =>
    intro load hload
    cases hload
  | succ levels ih =>
    intro load hload
    cases hload
    exact loadSource_continues ih

section Runs

variable {tree : FileTree} {path : Path} {l l' : Option Loader} {s : State}

/-- In every source that may be opened, both ways of loading do the same. -/
def LoadAlike (session : Session) (l l' : Option Loader) : Prop :=
  ∀ p t, session.Opens p t →
    ∃ load load', l = some load ∧ l' = some load' ∧ load p t = load' p t

theorem LoadAlike.continues {session session' : Session} (h : LoadAlike session l l')
    (hs : session.Continues session') : LoadAlike session' l l' :=
  fun p t hopens => h p t (hs.opens hopens)

theorem importFile_congr (h : LoadAlike s.session l l') (d : ImportDecl) (location : Text) :
    (importFile ⟨tree, path, l⟩ d location).run s =
      (importFile ⟨tree, path, l'⟩ d location).run s := by
  rcases importFile_cases tree path d location s with
    ⟨found, hfound, hadmits⟩ | ⟨result, -, hrun⟩
  · obtain ⟨load, load', rfl, rfl, hsame⟩ :=
      h _ _ ⟨s.session, continues_refl s.session, hadmits, rfl⟩
    rw [importFile_of_admits hfound hadmits, importFile_of_admits hfound hadmits]
    split
    · rw [importSource_run, importSource_run]
      simp only [hsame]
      rfl
    · rfl
  · rw [hrun, hrun]

theorem addDeclaration_congr (h : LoadAlike s.session l l') (c : Context) (inProtocol : Bool)
    (d : Declaration) :
    (addDeclaration c (some ⟨tree, path, l⟩) inProtocol d).run s =
      (addDeclaration c (some ⟨tree, path, l'⟩) inProtocol d).run s := by
  cases d with
  | file d =>
    refine bind_run_congr rfl fun location s₁ he => ?_
    rw [reported_run] at he
    obtain ⟨-, rfl⟩ := Prod.mk.inj he
    dsimp only
    rw [get_bind_run, get_bind_run]
    exact bind_run_congr (importFile_congr (by exact h) d location) fun _ _ _ => rfl
  | record d => rfl
  | enum d => rfl
  | fixed d => rfl
  | message d => rfl

theorem addDeclarations_congr (hl : Imports.Continue ⟨tree, path, l⟩)
    (h : LoadAlike s.session l l') (c : Context) (inProtocol : Bool) (ds : List Declaration) :
    (addDeclarations c (some ⟨tree, path, l⟩) inProtocol ds).run s =
      (addDeclarations c (some ⟨tree, path, l'⟩) inProtocol ds).run s := by
  induction ds generalizing s with
  | nil => rfl
  | cons d ds ih =>
    exact bind_run_congr (addDeclaration_congr h c inProtocol d) fun _ s₁ he =>
      ih (h.continues (continues_of_addDeclaration hl he))

theorem session_reported {α : Type} {r : Report α} {a : α} {s₁ : State}
    (he : (reported r).run s = (.ok a, s₁)) : s₁.session = s.session := by
  rw [reported_run] at he
  obtain ⟨-, rfl⟩ := Prod.mk.inj he
  rfl

theorem addUnit_congr (hl : Imports.Continue ⟨tree, path, l⟩) (h : LoadAlike s.session l l')
    (file : Text) (u : SourceUnit) :
    (addUnit file (some ⟨tree, path, l⟩) u).run s =
      (addUnit file (some ⟨tree, path, l'⟩) u).run s := by
  refine bind_run_congr rfl fun _ s₁ h₁ => ?_
  split
  · refine bind_run_congr rfl fun set s₂ h₂ => ?_
    refine bind_run_congr rfl fun q s₃ h₃ => ?_
    have h₃' : LoadAlike s₃.session l l' := by
      rwa [session_reported h₃, session_reported h₂, session_reported h₁]
    exact bind_run_congr (addDeclarations_congr hl h₃' _ true _) fun _ _ _ => rfl
  · refine bind_run_congr rfl fun scope s₂ h₂ => ?_
    have h₂' : LoadAlike s₂.session l l' := by
      rwa [session_reported h₂, session_reported h₁]
    exact bind_run_congr (addDeclarations_congr hl h₂' _ false _) fun _ _ _ => rfl

theorem buildSource_congr (hl : Imports.Continue ⟨tree, path, l⟩) (h : LoadAlike s.session l l')
    (source : Text) :
    buildSource ⟨tree, path, l⟩ source s = buildSource ⟨tree, path, l'⟩ source s := by
  unfold buildSource
  dsimp only
  split
  · rfl
  · rw [addUnit_congr hl h]

/-- Loaders that are made for enough levels do the same. -/
theorem loadAlike_loader (tree : FileTree) {levels levels' : Nat} {session : Session}
    (h : maxDepth ≤ levels + session.depth) (h' : maxDepth ≤ levels' + session.depth) :
    LoadAlike session (loader tree levels) (loader tree levels') := by
  induction levels generalizing levels' session with
  | zero => exact fun p t hopens => absurd hopens.depth_lt (by omega)
  | succ levels ih =>
    intro p t hopens
    have hlt := hopens.depth_lt
    obtain ⟨below, rfl⟩ : ∃ below, levels' = below + 1 := ⟨levels' - 1, by omega⟩
    refine ⟨_, _, rfl, rfl, ?_⟩
    have hdepth := hopens.depth_eq
    have hinner : LoadAlike t (loader tree levels) (loader tree below) :=
      ih (by omega) (by omega)
    unfold loadSource
    dsimp only
    split
    · rfl
    · rw [buildSource_congr (loader_continues tree levels p) hinner]

/-- The build of a source opens a file only where the session admits it. -/
theorem opens_of_consults {load : Loader} (hload : Imports.Continue ⟨tree, path, some load⟩)
    {source : Text} {p : Path} {t : Session}
    (h : Consults (fun load => buildSource ⟨tree, path, some load⟩ source s) load p t) :
    s.session.Opens p t := by
  by_contra hclosed
  obtain ⟨loaded, hdiffers⟩ := h
  refine hdiffers (buildSource_congr hload (fun q t' hopens => ?_) source).symm
  refine ⟨_, _, rfl, rfl, (update_loader_of_ne loaded ?_).symm⟩
  rintro ⟨rfl, rfl⟩
  exact hclosed hopens

end Runs

section Passes

/-- The sessions that the build of a source goes through, from the one in which it is opened: those
between its declarations and the one with which it ends; those of the sources that it opens, from
when they are opened until they are left, and the one that remains then. -/
inductive Passes (tree : FileTree) : Nat → Path → Option Text → Session → Session → Prop
  | start {levels : Nat} {path : Path} {source : Option Text} {session : Session} :
    Passes tree levels path source session session
  | between {levels : Nat} {path : Path} {source : Text} {session : Session} {u : SourceUnit}
    (count : Nat) (read : treeOf source path.text = .ok u) :
    Passes tree levels path (some source) session
      ((addUnit path.text (some ⟨tree, path, loader tree levels⟩) (u.upTo count)).run
        (.opening path session)).2.session
  | stop {levels : Nat} {path : Path} {source : Text} {session : Session} :
    Passes tree levels path (some source) session
      (buildSource ⟨tree, path, loader tree levels⟩ source (.opening path session)).2.session
  | inside {levels : Nat} {path p : Path} {source : Text} {session t later : Session}
    (opens : Consults (fun load => buildSource ⟨tree, path, some load⟩ source
      (.opening path session)) (loadSource tree (loader tree levels)) p t)
    (inner : Passes tree levels p (tree.read? p) t later) :
    Passes tree (levels + 1) path (some source) session later
  | marked {levels : Nat} {path p : Path} {source : Text} {session t : Session}
    (opens : Consults (fun load => buildSource ⟨tree, path, some load⟩ source
      (.opening path session)) (loadSource tree (loader tree levels)) p t) :
    Passes tree (levels + 1) path (some source) session t.leave

variable {tree : FileTree} {levels : Nat} {path : Path}

/-- The build of a unit continues the session in which its file is opened. -/
theorem continues_opening (tree : FileTree) (levels : Nat) (path : Path) (session : Session)
    (u : SourceUnit) :
    session.Continues ((addUnit path.text (some ⟨tree, path, loader tree levels⟩) u).run
      (.opening path session)).2.session := by
  have hkeep : ∀ i ∈ some (⟨tree, path, loader tree levels⟩ : Imports), i.Continue := by
    simpa using loader_continues tree levels path
  exact (continuesAt_addUnit hkeep path.text u : ContinuesAt (.opening path session) _)

/-- Every session that a build goes through is a disciplined one, and keeps what was visited. -/
theorem Passes.disciplined {source : Option Text} {session later : Session}
    (h : Passes tree levels path source session later) (hs : session.Disciplined) :
    later.Disciplined ∧ session.visited ⊆ later.visited := by
  have hopens {levels path p source session t}
      (opens : Consults (fun load => buildSource ⟨tree, path, some load⟩ source
        (.opening path session)) (loadSource tree (loader tree levels)) p t) : session.Opens p t :=
    opens_of_consults (loader_continues tree (levels + 1) path) opens
  induction h with
  | start => exact ⟨hs, fun _ hp => hp⟩
  | @between levels path _ session u count _ =>
    have hunit := continues_opening tree levels path session (u.upTo count)
    exact ⟨hs.continues hunit, hunit.visited⟩
  | @stop levels path source session =>
    have hbuild := buildSource_continues (loader_continues tree levels path) source
      (.opening path session)
    exact ⟨hs.continues hbuild, hbuild.visited⟩
  | inside opens _ ih =>
    obtain ⟨hopened, hvisited⟩ := hs.opens (hopens opens)
    obtain ⟨hlater, hmore⟩ := ih hopened
    exact ⟨hlater, fun _ hp => hmore (hvisited hp)⟩
  | marked opens =>
    have hleft := (hopens opens).leave
    exact ⟨hs.continues hleft, hleft.visited⟩

end Passes

end Compilation

namespace Project

open Build Compilation Session

theorem disciplined_session (x : Project) : x.session.Disciplined := by
  refine ⟨?_, ?_, ?_⟩
  all_goals simp [session, enter, markVisited, isVisited, depth, maxDepth]

/-- In all that a compilation goes through, the files of the chain are distinct visited ones and no
more than 64, and visited files stay visited. An import leaves the chain as it found it, however it
ends; it opens a source exactly if the session admits the file, and otherwise it leaves the whole
session as it is. And the sources that are open at once never use up the levels of the loader: for
any greater number the build is the same. -/
theorem disciplined_of_compile (x : Project) :
    (∀ later, Passes x.tree maxDepth x.path (some x.source) x.session later →
      later.Disciplined ∧ x.session.visited ⊆ later.visited) ∧
    (∀ levels importer d location s result s',
      (importFile ⟨x.tree, importer, loader x.tree levels⟩ d location).run s = (result, s') →
        s'.session.stack = s.session.stack ∧ s.session.visited ⊆ s'.session.visited) ∧
    (∀ importer d location s load p t,
      Consults (fun load => (importFile ⟨x.tree, importer, some load⟩ d location).run s) load p t ↔
        d.kind = .idl ∧ s.session.Admits p ∧ t = (s.session.markVisited p).enter p ∧
          ∃ found, Import.locate? x.tree importer s.session.searchDirectories location =
            some found ∧ p = x.tree.canonical found) ∧
    (∀ levels importer d location s found,
      Import.locate? x.tree importer s.session.searchDirectories location = some found →
      let p := x.tree.canonical found
      let s' := ((importFile ⟨x.tree, importer, loader x.tree levels⟩ d location).run s).2
      (s.session.Admits p → s'.session.isVisited p = true) ∧ (¬s.session.Admits p → s' = s)) ∧
    ∀ levels, maxDepth ≤ levels →
      buildSource ⟨x.tree, x.path, loader x.tree levels⟩ x.source (.opening x.path x.session) =
        buildSource ⟨x.tree, x.path, loader x.tree maxDepth⟩ x.source
          (.opening x.path x.session) := by
  refine ⟨?_, ?_, ?_, ?_, ?_⟩
  · intro later h
    exact h.disciplined x.disciplined_session
  · intro levels importer d location s result s' h
    have hcontinues :
        ContinuesAt s (importFile ⟨x.tree, importer, loader x.tree levels⟩ d location) :=
      continuesAt_importFile (loader_continues x.tree levels importer) d location
    rw [ContinuesAt, h] at hcontinues
    exact ⟨hcontinues.stack, hcontinues.visited⟩
  · intro importer d location s load p t
    exact consults_importFile_iff
  · intro levels importer d location s found hfound
    refine ⟨fun hadmits => ?_, fun hnot => ?_⟩
    · exact visited_of_importFile (loader_continues x.tree levels importer) hfound hadmits
    · rcases importFile_cases x.tree importer d location s with
        ⟨found', hfound', hadmits⟩ | ⟨result, -, hrun⟩
      · obtain rfl : found = found' := Option.some.inj (hfound.symm.trans hfound')
        exact absurd hadmits hnot
      · rw [hrun]
  · intro levels h
    exact buildSource_congr (loader_continues x.tree levels x.path)
      (loadAlike_loader x.tree (by omega) (by omega)) x.source

/-- A source that imports another one. -/
def nested : Project where
  tree := ({ current := ["w"] } : FileTree).putFile ["w", "b.avdl"] "record B \x7b\x7d"
  source := "import idl \"b.avdl\";"
  path := ⟨"a.avdl"⟩

/-- While the imported source is compiled, two disciplined files are open. -/
theorem disciplined_of_nested :
    ∃ later, Passes nested.tree maxDepth nested.path (some nested.source) nested.session later ∧
      later.depth = 2 ∧ later.Disciplined ∧ nested.session.visited ⊆ later.visited := by
  let p : Path := ⟨"/w/b.avdl"⟩
  let t : Session := (nested.session.markVisited p).enter p
  let load : Loader := loadSource nested.tree (loader nested.tree 63)
  let failure : Diagnostic := { kind := .importReadError, message := [], file := [] }
  let broken : Loaded := ⟨.opening p t, some failure⟩
  let build (load : Loader) := buildSource ⟨nested.tree, nested.path, some load⟩ nested.source
    (.opening nested.path nested.session)
  have hbuilt : (build load).1.toOption.isSome = true := by
    decide +kernel
  have hbroken :
      (build (Function.update load p (Function.update (load p) t broken))).1.toOption.isSome =
        false := by
    decide +kernel
  have hconsults : Consults build load p t := by
    refine ⟨broken, fun hsame => ?_⟩
    rw [hsame, hbuilt] at hbroken
    cases hbroken
  have hpasses : Passes nested.tree maxDepth nested.path (some nested.source) nested.session t :=
    .inside hconsults .start
  exact ⟨t, hpasses, by decide, (disciplined_of_compile nested).1 t hpasses⟩

end Project

end AvroIdl
