import AvroIdl.Proofs.BrokenBuilds
import AvroIdl.Proofs.UnitInvariants

/-!
# Success and errors

A compilation that is not broken off succeeds exactly if it reports no error. Every stage keeps to
that: what it adds before it ends are warnings, and it gives nothing exactly if it ends with an
error or throws. The rules say so for one computation after the other, up to loaders of any depth.
-/
namespace AvroIdl

theorem Text.ofNat_ne_nil (n : Nat) : Text.ofNat n ≠ [] := by
  simp [Text.ofNat, Nat.toDigits_ne_nil]

namespace Json

theorem floatText_ne_nil (x : Binary64) : floatText x ≠ [] := by
  have hdigits := Text.ofNat_ne_nil x.shortest.digits
  have hdecimal : decimalText layout x.shortest ≠ [] := by
    unfold decimalText
    dsimp only
    split
    · split
      · simp [Text.ofAscii]
      · split <;> simp [hdigits, Text.ofAscii]
    · simp [Text.ofAscii]
  have hplain :
      (if x.mantissa = 0 then ("0.0" : Text) else decimalText layout x.shortest) ≠ [] := by
    split
    · simp [Text.ofAscii]
    · exact hdecimal
  exact List.append_ne_nil_of_right_ne_nil _ hplain

theorem compact_ne_nil (j : Json) : j.compact ≠ [] := by
  cases j with
  | null => simp [compact, Text.ofAscii]
  | bool b => cases b <;> simp [compact, Text.ofAscii]
  | integer i => cases i <;> simp [compact, Text.ofInt, Text.ofNat_ne_nil]
  | float x => exact floatText_ne_nil x
  | string t => simp [compact, quoted, Text.ofAscii]
  | array elements => simp [compact, Text.ofAscii]
  | object members => simp [compact]

/-- A document is never written as nothing. -/
theorem render_ne_nil (j : Json) : j.render ≠ [] := by
  have henclosed (opening closing : UInt8) (items : List Text) :
      enclosed opening closing 0 items ≠ [] := by
    unfold enclosed
    split <;> simp
  unfold render indented
  split
  · exact henclosed _ _ _
  · exact henclosed _ _ _
  · exact compact_ne_nil _

end Json

theorem Diagnostic.hasErrors_eq_false_iff {ds : List Diagnostic} :
    hasErrors ds = false ↔ ∀ d ∈ ds, d.isWarning = true := by
  simp [hasErrors]

theorem Import.Problem.isWarning_diagnostic (p : Import.Problem) (importer : Path) (span : Span) :
    (p.diagnostic importer span).isWarning = false := by
  cases p with
  | invalid path problems =>
    cases problems with
    | nil => rfl
    | cons p ps => exact (p.isTold []).error
  | _ => rfl

namespace Build

variable {α β : Type} {s : State}

/-- What a computation reports: the warnings that it adds, and the error at which it stops. What is
thrown is not reported. -/
def emitted (x : Assembly α) (s : State) : List Diagnostic :=
  (x.run s).2.warnings.drop s.warnings.length ++
    match (x.run s).1 with
    | .ok _ => []
    | .error d => if d.isFault then [] else [d]

/-- Run in the state, the computation adds only warnings and stops only at an error. -/
def Sorts (s : State) (x : Assembly α) : Prop :=
  (∀ d, (x.run s).1 = .error d → d.isWarning = false) ∧
    ∃ added, (x.run s).2.warnings = s.warnings ++ added ∧ ∀ d ∈ added, d.isWarning = true

/-- A computation that sorts what it reports, and does not throw, gives nothing exactly if it has
reported an error. -/
theorem Sorts.hasErrors_emitted_iff {x : Assembly α} (h : Sorts s x) :
    Diagnostic.hasErrors (emitted x s) = true ↔
      (x.run s).1.toOption = none ∧ ¬ThrowsAt x s := by
  obtain ⟨herror, added, hw, hadded⟩ := h
  have hnone : Diagnostic.hasErrors added = false := Diagnostic.hasErrors_eq_false_iff.mpr hadded
  unfold emitted ThrowsAt
  rw [hw, List.drop_left]
  cases hr : (x.run s).1 with
  | ok a => simpa [Except.toOption] using hnone
  | error d =>
    cases hfault : d.isFault with
    | true => simpa [hfault, Except.toOption] using hnone
    | false => simp [Diagnostic.hasErrors, Except.toOption, hfault, herror d hr]

section Rules

theorem sorts_pure (a : α) : Sorts s (pure a) :=
  ⟨fun _ h => (nomatch h), [], (List.append_nil _).symm, by simp⟩

theorem sorts_throw {d : Diagnostic} (h : d.isWarning = false) :
    Sorts s (throw d : Assembly α) := by
  refine ⟨fun e he => ?_, [], (List.append_nil _).symm, by simp⟩
  cases he
  exact h

theorem sorts_get {f : State → Assembly β} (h : Sorts s (f s)) : Sorts s (get >>= f) := h

theorem sorts_set {s' : State} {added : List Diagnostic} (h : s'.warnings = s.warnings ++ added)
    (hadded : ∀ d ∈ added, d.isWarning = true) : Sorts s (set s' : Assembly PUnit) :=
  ⟨fun _ hd => (nomatch hd), added, h, hadded⟩

theorem Sorts.bind {x : Assembly α} {f : α → Assembly β} (hx : Sorts s x)
    (hf : ∀ a s', Sorts s' (f a)) : Sorts s (x >>= f) := by
  obtain ⟨herror, added, hw, hadded⟩ := hx
  rcases hr : x.run s with ⟨result, s₁⟩
  rw [hr] at herror hw
  unfold Sorts
  cases result with
  | ok a =>
    obtain ⟨herror', added', hw', hadded'⟩ := hf a s₁
    rw [bind_run_of_ok hr]
    refine ⟨herror', added ++ added', ?_, ?_⟩
    · rw [hw', show s₁.warnings = s.warnings ++ added from hw, List.append_assoc]
    · exact fun d hd => (List.mem_append.mp hd).elim (hadded d) (hadded' d)
  | error e =>
    rw [bind_run_of_error hr]
    refine ⟨fun d hd => ?_, added, hw, hadded⟩
    cases hd
    exact herror e rfl

theorem sorts_set_bind {s' : State} {f : PUnit → Assembly β} {added : List Diagnostic}
    (h : s'.warnings = s.warnings ++ added) (hadded : ∀ d ∈ added, d.isWarning = true)
    (hf : ∀ s, Sorts s (f ⟨⟩)) : Sorts s (set s' >>= f) :=
  (sorts_set h hadded).bind fun _ => hf

theorem sorts_reported {r : Report α} (h : r.Tells) : Sorts s (reported r) := by
  obtain ⟨herror, added, hw, hadded⟩ := h.after s.warnings
  rw [Sorts, reported_run]
  exact ⟨fun d hd => (herror d hd).error, added, hw, fun d hd => (hadded d hd).warning⟩

end Rules

section Imports

theorem sorts_stopImport (i : Imports) (d : ImportDecl) (p : Import.Problem) :
    Sorts s (stopImport i d p : Assembly α) :=
  sorts_throw (Import.Problem.isWarning_diagnostic p _ _)

theorem sorts_registerNamed (file : Text) (schema : Schema) :
    Sorts s (registerNamed file schema) := by
  refine sorts_get ?_
  split
  · exact sorts_set (List.append_nil _).symm (by simp)
  · next hr => exact sorts_throw (Registry.isTold_of_register hr).error

theorem sorts_mergeImport (i : Imports) (d : ImportDecl) (path : Path)
    (types : List Registry.Entry) (messages : List Message) :
    Sorts s (mergeImport i d path types messages) := by
  refine sorts_get (sorts_set_bind (List.append_nil _).symm (by simp) fun s => ?_)
  split
  · exact sorts_stopImport i d _
  · exact sorts_pure _

theorem sorts_importDocument (i : Imports) (d : ImportDecl) (path : Path) :
    Sorts s (importDocument i d path) := by
  rcases importDocument_eq i d path with ⟨document, -, heq⟩ | ⟨p, -, heq⟩
  · rw [heq]
    exact sorts_mergeImport i d path _ _
  · rw [heq]
    exact sorts_stopImport i d p

/-- A loader that fails only with an error, and hands over only warnings. -/
structure Loader.Sorts (load : Loader) : Prop where
  failure : ∀ path session d, (load path session).failure = some d → d.isWarning = false
  warnings : ∀ path session, ∀ d ∈ (load path session).state.warnings, d.isWarning = true

variable {i : Imports} (hi : ∀ load, i.loader = some load → load.Sorts)

include hi

theorem sorts_importSource (d : ImportDecl) (path : Path) : Sorts s (importSource i d path) := by
  unfold importSource
  split
  · exact sorts_stopImport i d _
  · next load hload =>
    have hsorts := hi load hload
    refine sorts_get (sorts_set_bind rfl (hsorts.warnings path _) fun s => ?_)
    split
    · next failure hfailure => exact sorts_throw (hsorts.failure path _ failure hfailure)
    · exact sorts_mergeImport i d path _ _

theorem sorts_importFile (d : ImportDecl) (location : Text) :
    Sorts s (importFile i d location) := by
  refine sorts_get ?_
  split
  · exact sorts_stopImport i d _
  · dsimp only
    split
    · exact sorts_stopImport i d _
    · split
      · exact sorts_pure _
      · split
        · exact sorts_stopImport i d _
        · refine sorts_set_bind (List.append_nil _).symm (by simp) fun s => ?_
          split
          · exact sorts_importSource hi d _
          · exact sorts_importDocument i d _

end Imports

section Units

variable {imports : Option Imports}
  (hi : ∀ i ∈ imports, ∀ load, i.loader = some load → load.Sorts)

include hi

theorem sorts_importDeclared (c : Context) (inProtocol : Bool) (d : ImportDecl) :
    Sorts s (importDeclared c imports inProtocol d) := by
  refine (sorts_reported (tells_decoded c d.span _)).bind fun location s => ?_
  split
  · exact sorts_reported (tells_stop c _ _)
  · next i =>
    refine sorts_get ((sorts_importFile (hi i rfl) d location).bind fun _ s => ?_)
    split
    · refine sorts_get (sorts_set rfl fun d hd => ?_)
      obtain ⟨m, -, rfl⟩ := List.mem_map.mp hd
      exact (Warning.isNotice _ _ _).warning
    · exact sorts_pure _

theorem sorts_addDeclaration (c : Context) (inProtocol : Bool) (d : Declaration) :
    Sorts s (addDeclaration c imports inProtocol d) := by
  have hregister {r : Report Schema} (h : r.Tells) :
      Sorts s (reported r >>= registerNamed c.file) :=
    (sorts_reported h).bind fun schema _ => sorts_registerNamed c.file schema
  cases d with
  | file d => exact sorts_importDeclared hi c inProtocol d
  | record d => exact hregister (tells_recordOf c d)
  | enum d => exact hregister (Report.tells_ofExcept (refuses_enumOf c d))
  | fixed d => exact hregister (Report.tells_ofExcept (refuses_fixedOf c d))
  | message d =>
    refine (sorts_reported (tells_messageOf c d)).bind fun message s => sorts_get ?_
    split
    · exact sorts_reported (tells_stop c _ _)
    · exact sorts_set (List.append_nil _).symm (by simp)

theorem sorts_addDeclarations (c : Context) (inProtocol : Bool) (ds : List Declaration) :
    Sorts s (addDeclarations c imports inProtocol ds) := by
  induction ds generalizing s with
  | nil => exact sorts_pure _
  | cons d ds ih => exact (sorts_addDeclaration hi c inProtocol d).bind fun _ _ => ih

theorem sorts_addUnit (file : Text) (u : SourceUnit) : Sorts s (addUnit file imports u) := by
  refine (sorts_reported (Project.tells_warnOrphans _ u.orphans)).bind fun _ s => ?_
  split
  · next d _ =>
    refine (sorts_reported (Report.tells_ofExcept (refuses_collect file _ _))).bind fun set s => ?_
    refine (sorts_reported (Report.tells_ofExcept (refuses_declaredName _ _ set))).bind
      fun q s => ?_
    exact (sorts_addDeclarations hi _ true d.body).bind fun _ s => sorts_get (sorts_pure _)
  · next space main ds _ =>
    refine (sorts_reported (Project.tells_scopeOf _ space)).bind fun scope s => ?_
    refine (sorts_addDeclarations hi _ false ds).bind fun _ s => ?_
    cases main with
    | none => exact sorts_get (sorts_pure _)
    | some type =>
      exact (sorts_reported (tells_typeOf _ type)).bind fun schema s => sorts_get (sorts_pure _)

end Units

end Build

namespace Compilation

open Build

theorem treeOf_ne_error_nil (source file : Text) : treeOf source file ≠ .error [] := by
  unfold treeOf
  dsimp only
  split
  · next h => simpa using h
  · split
    · simp
    · next hds => simpa using hds

theorem finish_ne_error_nil (registry : Registry) (file : IdlFile) :
    finish registry file ≠ .error [] := by
  unfold finish
  dsimp only
  split
  · simp
  · split
    · simp
    · next hds => simpa using hds

/-- Why no unit was built, if that is errors only and at least one. -/
def Failure.Genuine (f : Failure) : Prop :=
  f.diagnostics ≠ [] ∧ ∀ d ∈ f.diagnostics, d.isWarning = false

theorem genuine_of_buildSource {i : Imports} (hi : ∀ load, i.loader = some load → load.Sorts)
    (source : Text) (s : State) :
    (∀ f, (buildSource i source s).1 = .error f → f.Genuine) ∧
      ∃ added, (buildSource i source s).2.warnings = s.warnings ++ added ∧
        ∀ d ∈ added, d.isWarning = true := by
  unfold buildSource
  dsimp only
  cases htree : treeOf source i.importer.text with
  | error ds =>
    refine ⟨fun f hf => ?_, [], (List.append_nil _).symm, by simp⟩
    cases hf
    refine ⟨fun hnil => ?_, fun d hd => (isTold_of_treeOf htree d hd).error⟩
    rw [show ds = [] from hnil] at htree
    exact treeOf_ne_error_nil _ _ htree
  | ok u =>
    have hsorts : Sorts s (addUnit i.importer.text (some i) u) :=
      sorts_addUnit (by simpa using hi) _ u
    obtain ⟨herror, added, hw, hadded⟩ := hsorts
    rcases hr : (addUnit i.importer.text (some i) u).run s with ⟨result, s'⟩
    rw [hr] at herror hw
    dsimp only
    rw [hr]
    cases result with
    | ok idl => exact ⟨by simp, added, hw, hadded⟩
    | error d =>
      refine ⟨fun f hf => ?_, added, hw, hadded⟩
      cases hf
      exact ⟨by simp [Failure.diagnostics], by simpa [Failure.diagnostics] using herror d rfl⟩

/-- A source that is loaded hands over the warnings of its build. -/
theorem warnings_loadSource {tree : FileTree} {path : Path} {source : Text}
    (h : tree.read? path = some source) (inner : Option Loader) (session : Session) :
    (loadSource tree inner path session).state.warnings =
      (buildSource ⟨tree, path, inner⟩ source (.opening path session)).2.warnings := by
  unfold loadSource
  rw [h]
  dsimp only
  split
  all_goals
    next hr =>
    rw [State.opening, hr]

theorem sorts_loadSource {tree : FileTree} {inner : Option Loader}
    (hi : ∀ load, inner = some load → load.Sorts) : (loadSource tree inner).Sorts := by
  have hbuild (path : Path) (session : Session) (source : Text) :=
    genuine_of_buildSource (i := ⟨tree, path, inner⟩) hi source (.opening path session)
  refine ⟨fun path session d hd => ?_, fun path session d hd => ?_⟩
  · unfold loadSource at hd
    dsimp only at hd
    split at hd
    · cases hd
      rfl
    · next source _ =>
      split at hd
      · cases hd
        rfl
      · next e s' hr =>
        cases hd
        exact ((hbuild path session source).1 _ (congrArg Prod.fst hr)).2 d
          (by simp [Failure.diagnostics])
      · cases hd
      · cases hd
  · cases hread : tree.read? path with
    | none => simp [loadSource, hread] at hd
    | some source =>
      obtain ⟨-, added, hw, hadded⟩ := hbuild path session source
      rw [warnings_loadSource hread, hw] at hd
      exact hadded d hd

theorem sorts_loader (tree : FileTree) (levels : Nat) {load : Loader}
    (h : loader tree levels = some load) : load.Sorts := by
  induction levels generalizing load with
  | zero => cases h
  | succ levels ih =>
    cases h
    exact sorts_loadSource fun _ h => ih h

section Decided

variable {α β : Type}

/-- Whether a compilation has a result. -/
def succeeds (c : Compilation α) : Bool := c.result.toOption.isSome

namespace Ending

def succeeds : Ending α → Bool
  | success _ _ => true
  | _ => false

def isAborted : Ending α → Bool
  | aborted => true
  | _ => false

def warnings : Ending α → List Diagnostic
  | success warnings _ | failure warnings _ => warnings
  | aborted => []

/-- What prevents the result. -/
def errors : Ending α → List Diagnostic
  | failure _ errors => errors
  | _ => []

def result? : Ending α → Option α
  | success _ a => some a
  | _ => none

/-- The text of the document; without one it is empty. -/
def output (e : Ending Output) : Text := (e.result?.map (·.text)).getD []

def file? (e : Ending Output) : Option IdlFile := e.result?.map (·.file)

/-- The warnings are warnings and the errors are none, and there is a result exactly if there is no
error. -/
structure Decided (e : Ending α) : Prop where
  warnings : ∀ d ∈ e.warnings, d.isWarning = true
  errors : ∀ d ∈ e.errors, d.isWarning = false
  verdict : e.succeeds = true ↔ Diagnostic.hasErrors e.errors = false

theorem isAborted_iff {e : Ending α} : e.isAborted = true ↔ e = .aborted := by
  cases e <;> simp [isAborted]

/-- Of what is broken off there is neither a result nor an error. -/
theorem not_decided_aborted : ¬(aborted : Ending α).Decided := fun h => nomatch h.verdict.mpr rfl

end Ending

theorem Ending.succeeds_eq {e : Ending α} : e.succeeds = e.result?.isSome := by
  cases e <;> rfl

/-- However a compilation ends, it has no other result. -/
theorem result?_ending (c : Compilation α) : c.ending.result? = c.result.toOption := by
  unfold ending
  cases c.result with
  | ok a => rfl
  | error ds =>
    dsimp only
    split <;> rfl

theorem succeeds_ending (c : Compilation α) : c.ending.succeeds = c.succeeds := by
  rw [Ending.succeeds_eq, result?_ending, succeeds]

@[simp]
theorem succeeds_map (f : α → β) (c : Compilation α) : (c.map f).succeeds = c.succeeds := by
  obtain ⟨warnings, result⟩ := c
  cases result <;> rfl

theorem ending_of_ok {c : Compilation α} {a : α} (h : c.result = .ok a) :
    c.ending = .success c.warnings a := by
  rw [ending, h]

theorem ending_of_error {c : Compilation α} {ds : List Diagnostic} (h : c.result = .error ds)
    (hends : c.ending ≠ .aborted) : c.ending = .failure c.warnings ds := by
  rw [ending, h] at hends ⊢
  dsimp only at hends ⊢
  split
  · next hfault => exact absurd (if_pos hfault) hends
  · rfl

/-- What a compilation reports: warnings that are some, and if there is no result errors of which
there is at least one. -/
structure Genuine (c : Compilation α) : Prop where
  warnings : ∀ d ∈ c.warnings, d.isWarning = true
  errors : ∀ ds, c.result = .error ds → ds ≠ [] ∧ ∀ d ∈ ds, d.isWarning = false

theorem genuine_root (tree : FileTree) (searchDirectories : List Path) (source : Text)
    (path : Path) : (root tree searchDirectories source path).Genuine := by
  obtain ⟨hfails, added, hw, hadded⟩ := genuine_of_buildSource
    (i := ⟨tree, path, loader tree Session.maxDepth⟩) (fun _ h => sorts_loader tree _ h) source
    (.opening path (Project.session ⟨tree, searchDirectories, source, path⟩))
  rw [Project.root_eq ⟨tree, searchDirectories, source, path⟩]
  rcases hr : buildSource ⟨tree, path, loader tree Session.maxDepth⟩ source
    (.opening path (Project.session ⟨tree, searchDirectories, source, path⟩)) with ⟨result, s'⟩
  rw [hr] at hfails hw
  have hwarnings : ∀ d ∈ s'.warnings, d.isWarning = true := by
    rw [show s'.warnings = added from hw]
    exact hadded
  cases result with
  | error f =>
    refine ⟨hwarnings, fun ds hds => ?_⟩
    cases hds
    exact hfails f rfl
  | ok file =>
    refine ⟨hwarnings, fun ds hds => ⟨?_, fun d hd => (isTold_of_finish hds d hd).error⟩⟩
    rintro rfl
    exact finish_ne_error_nil _ _ hds

theorem Genuine.map {c : Compilation α} (h : c.Genuine) (f : α → β) : (c.map f).Genuine := by
  obtain ⟨warnings, result⟩ := c
  refine ⟨h.warnings, fun ds hds => ?_⟩
  cases result with
  | ok a => cases hds
  | error es =>
    cases hds
    exact h.errors _ rfl

/-- What is not broken off is decided. -/
theorem Genuine.decided {c : Compilation α} (h : c.Genuine) (hends : c.ending ≠ .aborted) :
    c.ending.Decided := by
  cases hr : c.result with
  | ok a =>
    rw [ending_of_ok hr]
    exact ⟨h.warnings, by simp [Ending.errors],
      by simp [Ending.succeeds, Ending.errors, Diagnostic.hasErrors]⟩
  | error ds =>
    obtain ⟨hne, herrors⟩ := h.errors ds hr
    have hverdict : Diagnostic.hasErrors ds = true := by
      obtain ⟨d, ds, rfl⟩ := List.exists_cons_of_ne_nil hne
      simp [Diagnostic.hasErrors, herrors d List.mem_cons_self]
    rw [ending_of_error hr hends]
    exact ⟨h.warnings, herrors, by simp [Ending.succeeds, Ending.errors, hverdict]⟩

end Decided

section Results

variable {tree : FileTree} {searchDirectories : List Path} {source : Text} {path : Path}

theorem compileSource_of_root {unit : Root}
    (h : (root tree searchDirectories source path).result = .ok unit) :
    (compileSource tree searchDirectories source path).result =
      .ok ⟨unit.document.render, unit.file⟩ := by
  simp [compileSource, map, h, Except.map]

theorem compileNamed_of_root {unit : Root}
    (h : (root tree searchDirectories source path).result = .ok unit) :
    (compileNamed tree searchDirectories source path).result = .ok unit.namedSchemas := by
  simp [compileNamed, map, h, Except.map]

theorem ending_compileSource_eq_aborted_iff :
    (compileSource tree searchDirectories source path).ending = .aborted ↔
      Project.Aborts ⟨tree, searchDirectories, source, path⟩ := by
  rw [compileSource, ending_map_eq_aborted_iff]
  exact Project.ending_root_eq_aborted_iff ⟨tree, searchDirectories, source, path⟩

theorem ending_compileNamed_eq_aborted_iff :
    (compileNamed tree searchDirectories source path).ending = .aborted ↔
      Project.Aborts ⟨tree, searchDirectories, source, path⟩ := by
  rw [compileNamed, ending_map_eq_aborted_iff]
  exact Project.ending_root_eq_aborted_iff ⟨tree, searchDirectories, source, path⟩

/-- Compiled to one schema for every named type, a source ends as it does otherwise. -/
theorem ending_compileNamed (tree : FileTree) (searchDirectories : List Path) (source : Text)
    (path : Path) :
    let compiled := (compileSource tree searchDirectories source path).ending
    let named := (compileNamed tree searchDirectories source path).ending
    named.succeeds = compiled.succeeds ∧ named.warnings = compiled.warnings ∧
      named.errors = compiled.errors := by
  unfold compileSource compileNamed
  rcases root tree searchDirectories source path with ⟨warnings, result⟩
  cases result with
  | ok unit => exact ⟨rfl, rfl, rfl⟩
  | error ds =>
    simp only [map, Except.map, ending]
    split <;> exact ⟨rfl, rfl, rfl⟩

end Results

/-- The compilation of a source is broken off, and returns nothing, exactly if it gets to an order
that cannot be shown or to a document with a number out of range. Otherwise it has a document and
the file that it stands for, and no error; or it has errors, and neither of them. Compiled to one
schema for every named type, a source has the same warnings and errors, and the schemas are those of
the registered types in their order. The same holds of every stage, whatever is loaded in it: a unit
and an import that do not throw give nothing exactly if they have reported an error. -/
theorem decided_of_compile (tree : FileTree) (searchDirectories : List Path) (source : Text)
    (path : Path) :
    let compiled := (compileSource tree searchDirectories source path).ending
    let named := (compileNamed tree searchDirectories source path).ending
    let aborts := Project.Aborts ⟨tree, searchDirectories, source, path⟩
    (compiled = .aborted ↔ aborts) ∧ (named = .aborted ↔ aborts) ∧
      (¬aborts → compiled.Decided ∧ named.Decided) ∧
      (compiled.succeeds = true → ∃ unit schemas,
        (root tree searchDirectories source path).result = .ok unit ∧
        compiled.file? = some unit.file ∧ compiled.output = unit.document.render ∧
        compiled.output ≠ [] ∧ named.result? = some schemas ∧
        schemas.map (·.full) = unit.registry.names ∧ unit.registry.names.Nodup) ∧
      (compiled.succeeds = false → compiled.output = [] ∧ compiled.file? = none) ∧
      named.succeeds = compiled.succeeds ∧ named.warnings = compiled.warnings ∧
      named.errors = compiled.errors ∧
      (∀ levels, ∀ load ∈ loader tree levels, load.Sorts) ∧
      (∀ imports : Option Imports, (∀ i ∈ imports, ∀ load ∈ i.loader, load.Sorts) →
        ∀ file u s, Diagnostic.hasErrors (emitted (addUnit file imports u) s) = true ↔
          ((addUnit file imports u).run s).1.toOption = none ∧
            ¬ThrowsAt (addUnit file imports u) s) ∧
      ∀ i : Imports, (∀ load ∈ i.loader, load.Sorts) →
        ∀ d location s, Diagnostic.hasErrors (emitted (importFile i d location) s) = true ↔
          ((importFile i d location).run s).1.toOption = none ∧
            ¬ThrowsAt (importFile i d location) s := by
  intro compiled named aborts
  have hgenuine := genuine_root tree searchDirectories source path
  have hcompiled : compiled = .aborted ↔ aborts := ending_compileSource_eq_aborted_iff
  have hnamed : named = .aborted ↔ aborts := ending_compileNamed_eq_aborted_iff
  obtain ⟨hsucceeds, hwarnings, herrors⟩ :=
    ending_compileNamed tree searchDirectories source path
  refine ⟨hcompiled, hnamed, ?_, ?_, ?_, hsucceeds, hwarnings, herrors, ?_, ?_, ?_⟩
  · intro h
    exact ⟨(hgenuine.map _).decided (mt hcompiled.mp h), (hgenuine.map _).decided (mt hnamed.mp h)⟩
  · intro hsuccess
    cases hr : (root tree searchDirectories source path).result with
    | error ds =>
      rw [succeeds_ending, compileSource, succeeds_map, succeeds, hr] at hsuccess
      cases hsuccess
    | ok unit =>
      have hends : compiled = .success _ _ := ending_of_ok (compileSource_of_root hr)
      have hschemas : named = .success _ _ := ending_of_ok (compileNamed_of_root hr)
      have houtput : compiled.output = unit.document.render := by
        rw [hends]
        rfl
      refine ⟨unit, unit.namedSchemas, rfl, ?_, houtput, ?_, ?_, ?_, ?_⟩
      · rw [hends]
        rfl
      · rw [houtput]
        exact Json.render_ne_nil _
      · rw [hschemas]
        rfl
      · simp [Root.namedSchemas, Registry.names, Function.comp_def]
      · exact (wellShaped_of_root hr).lawful.distinct
  · intro hfails
    have hnone : compiled.result? = none := by simpa [Ending.succeeds_eq] using hfails
    simp [Ending.output, Ending.file?, hnone]
  · exact fun levels load h => sorts_loader tree levels h
  · exact fun imports hi file u s => (sorts_addUnit hi file u).hasErrors_emitted_iff
  · exact fun i hi d location s => (sorts_importFile hi d location).hasErrors_emitted_iff

/-- A comment out of place, and a type that an imported file declares too. -/
def clashingSource : Text :=
  "import /** lost */ idl \"a.avdl\"; enum Suit \x7b RED \x7d"

/-- One source compiles without an error, and the other fails beside its warning. -/
theorem decided_of_sources :
    (compileSource mixedTree [] mixedSource ⟨"p.avdl"⟩).ending.succeeds = true ∧
      (compileSource mixedTree [] mixedSource ⟨"p.avdl"⟩).ending.output ≠ [] ∧
      (compileSource mixedTree [] clashingSource ⟨"p.avdl"⟩).ending.Decided ∧
      (compileSource mixedTree [] clashingSource ⟨"p.avdl"⟩).ending.warnings.length = 1 ∧
      (compileSource mixedTree [] clashingSource ⟨"p.avdl"⟩).ending.succeeds = false ∧
      (compileSource mixedTree [] clashingSource ⟨"p.avdl"⟩).ending.output = [] := by
  have hmixed : (compileSource mixedTree [] mixedSource ⟨"p.avdl"⟩).ending.succeeds = true := by
    decide +kernel
  have hclashing :
      (compileSource mixedTree [] clashingSource ⟨"p.avdl"⟩).ending.succeeds = false := by
    decide +kernel
  have hends : (compileSource mixedTree [] clashingSource ⟨"p.avdl"⟩).ending.isAborted = false := by
    decide +kernel
  obtain ⟨-, -, -, hsuccess, -⟩ := decided_of_compile mixedTree [] mixedSource ⟨"p.avdl"⟩
  obtain ⟨haborted, -, hdecided, -, hfailure, -⟩ :=
    decided_of_compile mixedTree [] clashingSource ⟨"p.avdl"⟩
  obtain ⟨_, _, -, -, -, houtput, -⟩ := hsuccess hmixed
  have hnot : ¬Project.Aborts ⟨mixedTree, [], clashingSource, ⟨"p.avdl"⟩⟩ := by
    rw [← haborted, ← Ending.isAborted_iff, hends]
    exact Bool.false_ne_true
  exact ⟨hmixed, houtput, (hdecided hnot).1, by decide +kernel, hclashing, (hfailure hclashing).1⟩

/-- A document with a property whose value is out of range. -/
def boundlessTree : FileTree :=
  ({ current := ["w"] } : FileTree).putFile ["w", "x.avsc"]
    "\x7b\"type\": \"enum\", \"name\": \"E\", \"symbols\": [], \"p\": 1e999\x7d"

/-- Importing the document ends without a result and without an error. -/
theorem exists_undecided_compilation :
    (compileSource boundlessTree [] "import schema \"x.avsc\";" ⟨"p.avdl"⟩).ending = .aborted ∧
      ¬(compileSource boundlessTree [] "import schema \"x.avsc\";" ⟨"p.avdl"⟩).ending.Decided := by
  have hends :
      (compileSource boundlessTree [] "import schema \"x.avsc\";" ⟨"p.avdl"⟩).ending = .aborted :=
    Ending.isAborted_iff.mp (by decide +kernel)
  rw [hends]
  exact ⟨rfl, Ending.not_decided_aborted⟩

end Compilation

end AvroIdl
