import AvroIdl.Proofs.ImportWalk
import AvroIdl.Proofs.Reporting
import Mathlib.Data.List.Chain

/-!
# Errors of imports

A build stops at an error, and only adds warnings to those before. If the error is an import cycle,
it names the files that are open, from the source to the one that imports an open one again.
-/
namespace AvroIdl

open Import (Target)

section Kinds

theorem Registry.Problem.isTold (p : Registry.Problem) (file : Text) :
    (p.diagnostic file).IsTold :=
  Diagnostic.isTold_of_kind (by cases p <;> rfl) (by cases p <;> simp [diagnostic])
    (by cases p <;> simp [diagnostic]) (by cases p <;> rfl)

theorem Registry.isTold_of_register {r : Registry} {s : Schema} {origin : Text} {d : Diagnostic}
    (h : r.register s origin = .error d) : d.IsTold := by
  unfold register at h
  dsimp only at h
  split at h
  · cases h
  · cases h
    exact Registry.Problem.isTold _ _

theorem Document.Problem.isTold (p : Document.Problem) (file : Text) :
    (p.diagnostic file).IsTold :=
  Diagnostic.isTold_of_kind (by cases p <;> rfl) (by cases p <;> simp [diagnostic, kind])
    (by cases p <;> simp [diagnostic, kind]) rfl

namespace Import

/-- Every import problem is an error, and all but a cycle are other ones, as long as what comes with
them is. -/
theorem Problem.isError {p : Problem} (hcycle : ∀ chain, p ≠ .cycle chain)
    (hrelated : ∀ d ∈ p.related, d.kind ≠ .importCycle) (importer : Path) (span : Span) :
    (p.diagnostic importer span).IsError := by
  have hkind : p.kind.isWarning = false ∧ p.kind ≠ .importCycle := by
    cases p with
    | cycle chain => exact absurd rfl (hcycle chain)
    | invalid path problems =>
      cases problems with
      | nil => exact ⟨rfl, by simp [kind]⟩
      | cons p ps => exact ⟨(p.isTold []).error, (p.isTold []).acyclic⟩
    | _ => exact ⟨rfl, by simp [kind]⟩
  exact ⟨hkind.1, hkind.2, hrelated⟩

theorem isError_of_addTypes {r : Registry} {es : List Registry.Entry} :
    ∀ d ∈ (addTypes r es).2, d.IsError := by
  induction es generalizing r with
  | nil => simp [addTypes]
  | cons e es ih =>
    intro d hd
    simp only [addTypes, List.mem_append, Option.mem_toList] at hd
    rcases hd with hd | hd
    · unfold addType at hd
      split at hd
      · cases hd
        exact Diagnostic.isError_of_kind rfl (by simp) rfl
      · split at hd
        · cases hd
        · next hr =>
          cases hd
          exact (Registry.isTold_of_register hr).toIsError
    · exact ih d hd

theorem isError_of_addMessages {file : Text} {path : Path} {messages imported : List Message} :
    ∀ d ∈ (addMessages file path messages imported).2, d.IsError := by
  induction imported generalizing messages with
  | nil => simp [addMessages]
  | cons m imported ih =>
    rw [addMessages]
    split
    · exact List.forall_mem_cons.mpr ⟨Diagnostic.isError_of_kind rfl (by simp) rfl, ih⟩
    · exact ih

theorem isError_of_merge {r : Registry} {messages imported : List Message} {path : Path}
    {types : List Registry.Entry} :
    ∀ d ∈ (merge r messages path types imported).collisions, d.IsError := by
  intro d hd
  exact (List.mem_append.mp hd).elim (isError_of_addTypes d) (isError_of_addMessages d)

end Import

namespace Registry

theorem isTold_of_unresolvedBundle {r : Registry} {refs : List (Text × Reference)}
    {d : Diagnostic} (h : r.unresolvedBundle refs = some d) : d.IsTold := by
  cases refs with
  | nil => cases h
  | cons p refs =>
    cases h
    refine ⟨⟨rfl, by simp, fun d hd => ?_⟩, rfl⟩
    obtain ⟨u, -, rfl⟩ := List.mem_map.mp hd
    simp [unresolved]

theorem isTold_of_defaultProblem? {r : Registry} {owner file : Text} {f : Field}
    {d : Diagnostic} (h : r.defaultProblem? owner file f = some d) : d.IsTold := by
  obtain ⟨value, -, h⟩ := Option.bind_eq_some_iff.mp h
  split at h
  · cases h
    exact Diagnostic.isTold_of_kind rfl (by simp) (by simp) rfl
  · obtain ⟨m, -, rfl⟩ := Option.map_eq_some_iff.mp h
    exact Diagnostic.isTold_of_kind rfl (by simp) (by simp) rfl

theorem isTold_of_validateDefaults {r : Registry} {messages : List Message} :
    ∀ d ∈ r.validateDefaults messages, d.IsTold := by
  intro d hd
  rcases List.mem_append.mp hd with hd | hd
  · obtain ⟨e, -, he⟩ := List.mem_flatMap.mp hd
    split at he
    · obtain ⟨f, -, hf⟩ := List.mem_filterMap.mp he
      exact isTold_of_defaultProblem? hf
    · cases he
  · obtain ⟨m, -, hm⟩ := List.mem_flatMap.mp hd
    obtain ⟨f, -, hf⟩ := List.mem_filterMap.mp hm
    exact isTold_of_defaultProblem? hf

end Registry

namespace Compilation

theorem isTold_readable {d : Diagnostic} (h : d.IsTold) : (readable d).IsTold := by
  unfold readable
  split
  · exact ⟨⟨h.error, h.acyclic, h.related⟩, h.caught⟩
  · exact h

/-- A source is no tree because of syntax errors and deep nesting. -/
theorem isTold_of_treeOf {source file : Text} {ds : List Diagnostic}
    (h : treeOf source file = .error ds) : ∀ d ∈ ds, d.IsTold := by
  unfold treeOf at h
  dsimp only at h
  split at h
  · cases h
    intro d hd
    obtain ⟨x, -, hx⟩ := List.mem_filterMap.mp hd
    unfold TokenStream.diagnostic? at hx
    split at hx
    · cases hx
      exact Diagnostic.isTold_of_kind rfl (by simp) (by simp) rfl
    · cases hx
  · split at h
    · cases h
    · next hds =>
      cases h
      intro d hd
      obtain ⟨d', hd', rfl⟩ := List.mem_map.mp hd
      obtain ⟨⟨p, span⟩, -, rfl⟩ := List.mem_map.mp hd'
      have hkind : p.kind.isWarning = false ∧ p.kind ≠ .importCycle ∧ p.kind ≠ .fault := by
        cases p <;> exact ⟨rfl, by simp [SyntaxProblem.kind]⟩
      exact isTold_readable (Diagnostic.isTold_of_kind hkind.1 hkind.2.1 hkind.2.2 rfl)

theorem isTold_of_finish {registry : Registry} {file : IdlFile} {ds : List Diagnostic}
    (h : finish registry file = .error ds) : ∀ d ∈ ds, d.IsTold := by
  unfold finish at h
  dsimp only at h
  split at h
  · next d hd =>
    cases h
    exact List.forall_mem_singleton.mpr (Registry.isTold_of_unresolvedBundle hd)
  · split at h
    · cases h
    · cases h
      exact Registry.isTold_of_validateDefaults

end Compilation

end Kinds

namespace Project

open Build

variable {x : Project} {p : Path} {s : State}

/-- A chain of files from the source, each of which imports the next one, and the last of which
occurs before. -/
structure Circular (x : Project) (chain : List Path) : Prop where
  starts : chain.head? = some x.root
  linked : chain.IsChain x.Imports
  closes : ∃ before last, chain = before ++ [last] ∧ last ∈ before

/-- What an error of a project can be. -/
inductive Complains (x : Project) : Diagnostic → Prop
  | error {d : Diagnostic} (h : d.IsError) : Complains x d
  | cycle {chain : List Path} (h : x.Circular chain) (importer : Path) (span : Span) :
    Complains x
      ((Import.Problem.cycle (Text.join " -> " (chain.map Path.text))).diagnostic importer span)

/-- The open files lead from the source to the file at a path, each of them imported by the one
before. -/
structure OnPath (x : Project) (p : Path) (session : Session) : Prop where
  directories : session.searchDirectories = x.searchDirectories
  starts : session.stack.head? = some x.root
  linked : session.stack.IsChain x.Imports
  ends : session.stack.getLast? = some p

theorem OnPath.root_mem {session : Session} (h : x.OnPath p session) : x.root ∈ session.stack :=
  List.mem_of_mem_head? h.starts

theorem OnPath.continues {session session' : Session} (h : x.OnPath p session)
    (hc : session.Continues session') : x.OnPath p session' := by
  refine ⟨hc.directories.trans h.directories, ?_, ?_, ?_⟩
  all_goals rw [hc.stack]
  exacts [h.starts, h.linked, h.ends]

theorem OnPath.reported {α : Type} {r : Report α} {a : α} {s' : State}
    (h : x.OnPath p s.session) (hr : (reported r).run s = (.ok a, s')) :
    x.OnPath p s'.session := by
  rw [show s'.session = s.session from congrArg Stock.session (reported_eq_ok hr).2]
  exact h

theorem OnPath.linked_append {session : Session} {q : Path} (h : x.OnPath p session)
    (hq : x.Imports p q) : (session.stack ++ [q]).IsChain x.Imports := by
  refine h.linked.append (.singleton q) ?_
  simpa [h.ends] using hq

theorem OnPath.enter {session : Session} {q : Path} (h : x.OnPath p session) (hplain : q.plain = q)
    (hq : x.Imports p q) : x.OnPath q ((session.markVisited q).enter q) := by
  have hstack : ((session.markVisited q).enter q).stack = session.stack ++ [q] := by
    simp [Session.enter, hplain]
  refine ⟨(Session.continues_markVisited session q).directories.trans h.directories, ?_, ?_, ?_⟩
  all_goals rw [hstack]
  · simp [h.starts]
  · exact h.linked_append hq
  · simp

/-- Run in the state, the computation stops at an error of the project only, and adds only
warnings. -/
def TellsAt {α : Type} (x : Project) (s : State) (a : Assembly α) : Prop :=
  (∀ d s', a.run s = (.error d, s') → x.Complains d) ∧
    ∃ added, (a.run s).2.warnings = s.warnings ++ added ∧ ∀ d ∈ added, d.IsNotice

section Rules

variable {α β : Type}

theorem tellsAt_pure (a : α) : x.TellsAt s (pure a) := by
  refine ⟨fun d s' h => ?_, [], (List.append_nil _).symm, by simp⟩
  cases h

theorem tellsAt_throw {d : Diagnostic} (h : x.Complains d) :
    x.TellsAt s (throw d : Assembly α) := by
  refine ⟨fun e s' he => ?_, [], (List.append_nil _).symm, by simp⟩
  cases he
  exact h

theorem tellsAt_get {f : State → Assembly β} (h : x.TellsAt s (f s)) : x.TellsAt s (get >>= f) := h

theorem tellsAt_set {s' : State} {added : List Diagnostic}
    (h : s'.warnings = s.warnings ++ added) (hadded : ∀ d ∈ added, d.IsNotice) :
    x.TellsAt s (set s' : Assembly PUnit) := by
  refine ⟨fun d s₁ hd => ?_, added, h, hadded⟩
  cases hd

theorem TellsAt.bind {a : Assembly α} {f : α → Assembly β} (ha : x.TellsAt s a)
    (hf : ∀ b s', a.run s = (.ok b, s') → x.TellsAt s' (f b)) : x.TellsAt s (a >>= f) := by
  obtain ⟨herror, added, hw, hadded⟩ := ha
  rcases hr : a.run s with ⟨result, s₁⟩
  rw [hr] at hw
  unfold TellsAt
  cases result with
  | ok b =>
    obtain ⟨herror', added', hw', hadded'⟩ := hf b s₁ hr
    rw [bind_run_of_ok hr]
    refine ⟨herror', added ++ added', ?_, ?_⟩
    · rw [hw', show s₁.warnings = s.warnings ++ added from hw, List.append_assoc]
    · exact fun d hd => (List.mem_append.mp hd).elim (hadded d) (hadded' d)
  | error e =>
    rw [bind_run_of_error hr]
    refine ⟨fun d s' hd => ?_, added, hw, hadded⟩
    cases hd
    exact herror e s₁ hr

theorem tellsAt_set_bind {s' : State} {f : PUnit → Assembly β} {added : List Diagnostic}
    (h : s'.warnings = s.warnings ++ added) (hadded : ∀ d ∈ added, d.IsNotice)
    (hf : x.TellsAt s' (f ⟨⟩)) : x.TellsAt s (set s' >>= f) :=
  (tellsAt_set h hadded).bind fun _ _ he => by
    cases he
    exact hf

theorem tellsAt_reported {r : Report α} (h : r.Tells) : x.TellsAt s (reported r) := by
  obtain ⟨herror, added, hw, hadded⟩ := h.after s.warnings
  rw [TellsAt, reported_run]
  refine ⟨fun d s' hd => ?_, added, hw, hadded⟩
  exact .error (herror d (congrArg Prod.fst hd))

end Rules

section Imports

variable {l : Option Loader} {d : ImportDecl} {t : Target}

theorem tellsAt_registerNamed (file : Text) (schema : Schema) :
    x.TellsAt s (registerNamed file schema) := by
  refine tellsAt_get ?_
  split
  · exact tellsAt_set (List.append_nil _).symm (by simp)
  · next hr =>
    exact tellsAt_throw (.error (Registry.isTold_of_register hr).toIsError)

theorem tellsAt_stopImport {α : Type} (i : Build.Imports) (d : ImportDecl) {p : Import.Problem}
    (hcycle : ∀ chain, p ≠ .cycle chain) (hrelated : ∀ d ∈ p.related, d.kind ≠ .importCycle) :
    x.TellsAt s (stopImport i d p : Assembly α) :=
  tellsAt_throw (.error (Import.Problem.isError hcycle hrelated _ _))

/-- An import problem with nothing else to it. -/
theorem tellsAt_stopBare {α : Type} (i : Build.Imports) (d : ImportDecl) {p : Import.Problem}
    (hcycle : ∀ chain, p ≠ .cycle chain) (hrelated : p.related = []) :
    x.TellsAt s (stopImport i d p : Assembly α) :=
  tellsAt_stopImport i d hcycle (by simp [hrelated])

theorem tellsAt_mergeImport (i : Build.Imports) (d : ImportDecl) (path : Path)
    (types : List Registry.Entry) (messages : List Message) :
    x.TellsAt s (mergeImport i d path types messages) := by
  refine tellsAt_get (tellsAt_set_bind (List.append_nil _).symm (by simp) ?_)
  split
  · refine tellsAt_stopImport i d (by simp) fun d hd => ?_
    exact (Import.isError_of_merge d hd).acyclic
  · exact tellsAt_pure _

theorem tellsAt_importDocument (i : Build.Imports) (d : ImportDecl) (path : Path) :
    x.TellsAt s (importDocument i d path) := by
  rcases importDocument_eq i d path with ⟨document, -, heq⟩ | ⟨p, hp, heq⟩
  · rw [heq]
    exact tellsAt_mergeImport i d path _ _
  · rw [heq]
    refine tellsAt_stopImport i d (fun chain hchain => ?_) fun d hd => ?_
    · subst hchain
      cases hp
    · cases hp with
      | invalid problems =>
        obtain ⟨p, -, rfl⟩ := List.mem_map.mp hd
        exact (p.isTold _).acyclic
      | _ => cases hd

/-- A source that is loaded at the end of the open files fails with an error of the project, and
gives only warnings. -/
def LoadsTell (x : Project) (l : Option Loader) : Prop :=
  ∀ load, l = some load → ∀ (q : Path) (session : Session), q ≠ x.root → x.OnPath q session →
    (∀ d, (load q session).failure = some d → x.Complains d) ∧
      ∀ d ∈ (load q session).state.warnings, d.IsNotice

theorem tellsAt_importSource (hl : x.LoadsTell l) {q : Path} (hq : q ≠ x.root)
    (hpath : x.OnPath q (s.session.enter q)) :
    x.TellsAt s (importSource ⟨x.tree, p, l⟩ d q) := by
  unfold importSource
  split
  · exact tellsAt_stopBare _ d (by simp) rfl
  · next load hload =>
    obtain ⟨hfailure, hwarnings⟩ := hl load hload q _ hq hpath
    refine tellsAt_get (tellsAt_set_bind rfl hwarnings ?_)
    split
    · next failure hd => exact tellsAt_throw (hfailure failure hd)
    · exact tellsAt_mergeImport _ d q _ _

theorem tellsAt_importFile (hl : x.LoadsTell l) (ht : x.tree.Placed)
    (hpath : x.OnPath p s.session) {location : Text}
    (hlocation : Literal.decodeString d.location = .ok location)
    (hd : ∀ t, x.target? p d = some t → t ∈ x.imports p) :
    x.TellsAt s (importFile ⟨x.tree, x.importer p, l⟩ d location) := by
  refine tellsAt_get ?_
  split
  · exact tellsAt_stopBare _ d (by simp) rfl
  · next found hfound =>
    have hleads : x.target? p d = some ⟨d.kind, x.tree.canonical found⟩ := by
      rw [hpath.directories] at hfound
      simp [target?, Import.target?, hlocation, hfound]
    have hplain := plain_of_target? ht hleads
    have himports : x.Imports p (x.tree.canonical found) := ⟨d.kind, hd _ hleads⟩
    dsimp only
    split
    · next hopen =>
      refine tellsAt_throw (.cycle ⟨?_, hpath.linked_append himports, _, _, rfl, ?_⟩ _ _)
      · simp [hpath.starts]
      · simpa [Session.isInProgress, hplain] using hopen
    · next hclosed =>
      rw [Bool.not_eq_true] at hclosed
      split
      · exact tellsAt_pure _
      · split
        · exact tellsAt_stopBare _ d (by simp) rfl
        · refine tellsAt_set_bind (List.append_nil _).symm (by simp) ?_
          split
          · exact tellsAt_importSource hl (ne_root_of_closed hplain hpath.root_mem hclosed)
              (hpath.enter hplain himports)
          · exact tellsAt_importDocument _ d _

end Imports

section Units

variable {l : Option Loader} {c : Context} {inProtocol : Bool}

theorem tellsAt_importDeclared (hl : x.LoadsTell l) (ht : x.tree.Placed)
    (hpath : x.OnPath p s.session) {d : ImportDecl}
    (hd : ∀ t, x.target? p d = some t → t ∈ x.imports p) :
    x.TellsAt s (importDeclared c (some ⟨x.tree, x.importer p, l⟩) inProtocol d) := by
  refine (tellsAt_reported (tells_decoded c d.span _)).bind fun location s₁ hdecode => ?_
  have hpath₁ := hpath.reported hdecode
  have hlocation := (reported_decoded_eq_ok hdecode).1
  refine tellsAt_get ((tellsAt_importFile hl ht hpath₁ hlocation hd).bind fun _ s₂ _ => ?_)
  split
  · refine tellsAt_get (tellsAt_set rfl fun d hd => ?_)
    obtain ⟨m, -, rfl⟩ := List.mem_map.mp hd
    exact Warning.isNotice _ _ _
  · exact tellsAt_pure _

theorem tellsAt_addMessage (d : MessageDecl) : x.TellsAt s (addMessage c d) := by
  refine (tellsAt_reported (tells_messageOf c d)).bind fun message s₁ _ => tellsAt_get ?_
  split
  · exact tellsAt_reported (tells_stop c _ _)
  · exact tellsAt_set (List.append_nil _).symm (by simp)

theorem tellsAt_addDeclaration (hl : x.LoadsTell l) (ht : x.tree.Placed)
    (hpath : x.OnPath p s.session) {d : Declaration}
    (hd : ∀ file, d = .file file → ∀ t, x.target? p file = some t → t ∈ x.imports p) :
    x.TellsAt s (addDeclaration c (some ⟨x.tree, x.importer p, l⟩) inProtocol d) := by
  have hregister {r : Report Schema} (h : r.Tells) :
      x.TellsAt s (reported r >>= registerNamed c.file) :=
    (tellsAt_reported h).bind fun schema _ _ => tellsAt_registerNamed c.file schema
  cases d with
  | file d => exact tellsAt_importDeclared hl ht hpath (hd d rfl)
  | record d => exact hregister (tells_recordOf c d)
  | enum d => exact hregister (Report.tells_ofExcept (refuses_enumOf c d))
  | fixed d => exact hregister (Report.tells_ofExcept (refuses_fixedOf c d))
  | message d => exact tellsAt_addMessage d

theorem tellsAt_addDeclarations (hl : x.LoadsTell l)
    (hcontinue : Imports.Continue ⟨x.tree, x.importer p, l⟩) (ht : x.tree.Placed)
    (hpath : x.OnPath p s.session) {ds : List Declaration}
    (hds : ∀ file, .file file ∈ ds → ∀ t, x.target? p file = some t → t ∈ x.imports p) :
    x.TellsAt s (addDeclarations c (some ⟨x.tree, x.importer p, l⟩) inProtocol ds) := by
  induction ds generalizing s with
  | nil => exact tellsAt_pure _
  | cons d ds ih =>
    have hone : x.TellsAt s (addDeclaration c (some ⟨x.tree, x.importer p, l⟩) inProtocol d) :=
      tellsAt_addDeclaration hl ht hpath fun file hfile =>
        hds file (by rw [hfile]; exact List.mem_cons_self)
    refine hone.bind fun _ s₁ hr => ih ?_ fun file hfile => hds file (List.mem_cons_of_mem d hfile)
    exact hpath.continues (continues_of_addDeclaration hcontinue hr)

theorem tells_warnOrphans (c : Context) (spans : List Span) : (warnOrphans c spans).Tells :=
  tellsOnly_warnOrphans c spans

theorem tells_scopeOf (c : Context) (space : Option Identifier) : (scopeOf c space).Tells :=
  admits_isError.scopeOf c space

/-- Of a unit that the file at a path is read as, the build stops only at errors of the project. -/
theorem tellsAt_addUnit (hl : x.LoadsTell l)
    (hcontinue : Imports.Continue ⟨x.tree, x.importer p, l⟩) (ht : x.tree.Placed)
    (hpath : x.OnPath p s.session) (file : Text) {u : SourceUnit} (hu : x.unit? p = some u) :
    x.TellsAt s (addUnit file (some ⟨x.tree, x.importer p, l⟩) u) := by
  have hds : ∀ file, .file file ∈ u.declarations →
      ∀ t, x.target? p file = some t → t ∈ x.imports p := by
    intro file hfile t hleads
    exact targets_subset_imports hu (List.mem_filterMap.mpr ⟨_, hfile, hleads⟩)
  refine (tellsAt_reported (tells_warnOrphans _ u.orphans)).bind fun _ s₁ h₁ => ?_
  have hpath₁ := hpath.reported h₁
  obtain ⟨body, orphans⟩ := u
  cases body with
  | protocol d =>
    refine (tellsAt_reported (Report.tells_ofExcept (refuses_collect file _ _))).bind
      fun set s₂ h₂ => ?_
    have hpath₂ := hpath₁.reported h₂
    refine (tellsAt_reported (Report.tells_ofExcept (refuses_declaredName _ _ set))).bind
      fun q s₃ h₃ => ?_
    have hpath₃ := hpath₂.reported h₃
    exact (tellsAt_addDeclarations hl hcontinue ht hpath₃ hds).bind fun _ s₄ _ =>
      tellsAt_get (tellsAt_pure _)
  | schemas space main ds =>
    refine (tellsAt_reported (tells_scopeOf _ space)).bind fun scope s₂ h₂ => ?_
    have hpath₂ := hpath₁.reported h₂
    refine (tellsAt_addDeclarations hl hcontinue ht hpath₂ hds).bind fun _ s₃ _ => ?_
    cases main with
    | none => exact tellsAt_get (tellsAt_pure _)
    | some type =>
      exact (tellsAt_reported (tells_typeOf _ type)).bind fun schema s₄ _ =>
        tellsAt_get (tellsAt_pure _)

end Units

section Sources

open Compilation

variable {l : Option Loader}

/-- Why a source of the project was not built. -/
def FailsBy (x : Project) : Failure → Prop
  | .unreadable ds => ∀ d ∈ ds, d.IsError
  | .declaration d => x.Complains d

theorem FailsBy.complains {f : Failure} (h : x.FailsBy f) : ∀ d ∈ f.diagnostics, x.Complains d := by
  cases f with
  | unreadable ds => exact fun d hd => .error (h d hd)
  | declaration d => exact List.forall_mem_singleton.mpr h

theorem failsBy_of_buildSource (hl : x.LoadsTell l)
    (hcontinue : Imports.Continue ⟨x.tree, x.importer p, l⟩) (ht : x.tree.Placed)
    (hpath : x.OnPath p s.session) {source : Text} (hsource : x.source? p = some source) :
    (∀ f, (buildSource ⟨x.tree, x.importer p, l⟩ source s).1 = .error f → x.FailsBy f) ∧
      ∃ added, (buildSource ⟨x.tree, x.importer p, l⟩ source s).2.warnings = s.warnings ++ added ∧
        ∀ d ∈ added, d.IsNotice := by
  unfold buildSource
  dsimp only
  cases htree : treeOf source (x.importer p).text with
  | error ds =>
    refine ⟨fun f hf => ?_, [], (List.append_nil _).symm, by simp⟩
    cases hf
    exact fun d hd => (isTold_of_treeOf htree d hd).toIsError
  | ok u =>
    have hu : x.unit? p = some u := by
      rw [unit?, hsource, Option.bind_some, htree]
      rfl
    obtain ⟨herror, added, hw, hadded⟩ :=
      tellsAt_addUnit (s := s) hl hcontinue ht hpath (x.importer p).text hu
    rcases hr : (addUnit (x.importer p).text (some ⟨x.tree, x.importer p, l⟩) u).run s
      with ⟨result, s'⟩
    rw [hr] at hw
    dsimp only
    rw [hr]
    cases result with
    | ok idl => exact ⟨by simp, added, hw, hadded⟩
    | error d =>
      refine ⟨fun f hf => ?_, added, hw, hadded⟩
      cases hf
      exact herror d s' hr

/-- Sources of a project that are loaded fail by what the project complains about. -/
theorem loadsTell_loader (ht : x.tree.Placed) (levels : Nat) :
    x.LoadsTell (loader x.tree levels) := by
  induction levels with
  | zero =>
    intro load hload
    cases hload
  | succ levels ih =>
    intro load hload q session hq hpath
    cases hload
    have himporter : x.importer q = q := if_neg hq
    unfold loadSource
    dsimp only
    split
    · refine ⟨fun d hd => ?_, by simp⟩
      cases hd
      exact .error (Diagnostic.isError_of_kind rfl (by simp) rfl)
    · next source hread =>
      have hsource : x.source? q = some source := by rw [source?, if_neg hq, hread]
      have hbuild := failsBy_of_buildSource (s := .opening q session) ih
        (loader_continues x.tree levels (x.importer q)) ht hpath hsource
      rw [himporter] at hbuild
      obtain ⟨herror, added, hw, hadded⟩ := hbuild
      have hopening : State.opening q session =
        { registry := { file := q.text }, session := session } := rfl
      rw [← hopening]
      rcases hr : buildSource ⟨x.tree, q, loader x.tree levels⟩ source (.opening q session)
        with ⟨result, s'⟩
      rw [hr] at herror hw
      have hnotices : ∀ d ∈ s'.warnings, d.IsNotice := by
        rw [show s'.warnings = added from hw]
        exact hadded
      cases result with
      | ok idl =>
        obtain ⟨content, names⟩ := idl
        cases content <;> exact ⟨by simp, hnotices⟩
      | error f =>
        cases f with
        | unreadable ds =>
          refine ⟨fun d hd => ?_, hnotices⟩
          cases hd
          exact .error ⟨rfl, by simp, fun d hd => (herror _ rfl d hd).acyclic⟩
        | declaration e =>
          refine ⟨fun d hd => ?_, hnotices⟩
          cases hd
          exact herror _ rfl

theorem onPath_session (x : Project) : x.OnPath x.root x.session := by
  have hdirectories : x.session.searchDirectories = x.searchDirectories := by
    rw [session, (Session.continues_markVisited _ _).directories]
    rfl
  refine ⟨hdirectories, ?_, ?_, ?_⟩
  all_goals simp [session, root, Session.enter]

/-- All that a compilation of a project reports. -/
theorem complains_of_root (ht : x.tree.Placed) :
    (∀ ds, (Compilation.root x.tree x.searchDirectories x.source x.path).result = .error ds →
      ∀ d ∈ ds, x.Complains d) ∧
    ∀ d ∈ (Compilation.root x.tree x.searchDirectories x.source x.path).warnings, d.IsNotice := by
  have hroot : x.importer x.root = x.path := if_pos rfl
  have hsource : x.source? x.root = some x.source := if_pos rfl
  obtain ⟨herror, added, hw, hadded⟩ := failsBy_of_buildSource (s := .opening x.path x.session)
    (loadsTell_loader ht Session.maxDepth)
    (loader_continues x.tree Session.maxDepth (x.importer x.root)) ht x.onPath_session hsource
  rw [hroot] at herror hw
  rw [root_eq]
  rcases hr : buildSource ⟨x.tree, x.path, loader x.tree Session.maxDepth⟩ x.source
    (.opening x.path x.session) with ⟨result, s'⟩
  rw [hr] at herror hw
  have hnotices : ∀ d ∈ s'.warnings, d.IsNotice := by
    rw [show s'.warnings = added from hw]
    exact hadded
  cases result with
  | ok idl =>
    refine ⟨fun ds hds d hd => ?_, hnotices⟩
    exact .error (isTold_of_finish hds d hd).toIsError
  | error f =>
    refine ⟨fun ds hds => ?_, hnotices⟩
    cases hds
    exact (herror f rfl).complains

end Sources

end Project

end AvroIdl
