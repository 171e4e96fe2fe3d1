import AvroIdl.Proofs.TreeLayout

/-!
# Guards that are never reached

The build of types refuses a type inside too many others and a keyword that names no type. Both are
refused by the reader of tokens already: what is read without a problem is built without these
errors, and with it all sources that it imports.
-/
namespace AvroIdl

namespace Build

/-- An error that is not one for a type that is never read. -/
def Ordinary (d : Diagnostic) : Prop :=
  ∀ (p : Problem) (file : Text) (span : Span), p.IsGuard → d ≠ p.diagnostic file span

theorem ordinary_of_kind {d : Diagnostic}
    (h : d.kind ≠ .nestingTooDeep ∧ d.kind ≠ .syntaxError) : Ordinary d := by
  rintro p file span hp rfl
  rcases hp.cases with rfl | ⟨k, rfl⟩
  · exact h.1 rfl
  · exact h.2 rfl

theorem ordinary_of_message {d : Diagnostic}
    (h : d.message.take 3 ≠ "Typ" ∧ d.message.take 3 ≠ "Une") : Ordinary d := by
  rintro p file span hp rfl
  rcases hp.cases with rfl | ⟨k, rfl⟩
  · exact h.1 (of_decide_eq_true rfl)
  · exact h.2 (of_decide_eq_true rfl)

theorem ordinary_literal (p : Literal.Problem) (file : Text) (span : Span) :
    Ordinary (p.diagnostic file span) := by
  -- a malformed number is a syntax error as a keyword is, and only its message tells them apart
  cases p with
  | malformedInteger raw => exact ordinary_of_message (of_decide_eq_true rfl)
  | malformedFloat raw => exact ordinary_of_message (of_decide_eq_true rfl)
  | _ =>
    apply ordinary_of_kind
    simp [Literal.Problem.diagnostic, Literal.Problem.kind]

theorem ordinary_problem {p : Problem} (h : ¬p.IsGuard) (file : Text) (span : Span) :
    Ordinary (p.diagnostic file span) := by
  cases p with
  | tooDeep => exact absurd trivial h
  | unexpectedKeyword k => exact absurd trivial h
  | _ =>
    apply ordinary_of_kind
    simp [Problem.diagnostic, Problem.kind]

/-- A long chain of imports is nested too deeply as well, but says so in other words. -/
theorem ordinary_import (p : Import.Problem) (importer : Path) (span : Span) :
    Ordinary (p.diagnostic importer span) := by
  cases p <;> exact ordinary_of_message (of_decide_eq_true rfl)

theorem ordinary_register {r : Registry} {s : Schema} {origin : Text} {d : Diagnostic}
    (h : r.register s origin = .error d) : Ordinary d := by
  unfold Registry.register at h
  dsimp only at h
  split at h
  · cases h
  · next p _ =>
    cases h
    cases p <;> exact ordinary_of_kind (by simp [Registry.Problem.diagnostic])

theorem permitsFields_ordinary : PermitsFields Ordinary where
  literal := ordinary_literal
  problem _ file span h := ordinary_problem h.2.1 file span
  fault p file span h := by
    apply ordinary_problem
    intro hguard
    rcases hguard.cases with rfl | ⟨k, rfl⟩ <;> cases h
  default p file span h := by
    apply ordinary_problem
    intro hguard
    rcases hguard.cases with rfl | ⟨k, rfl⟩ <;> cases h

/-- The computation stops only where `E` holds. -/
def StopsOnly {α : Type} (E : Diagnostic → Prop) (x : Assembly α) : Prop :=
  ∀ s d s', x.run s = (.error d, s') → E d

section StopsOnly

variable {α β : Type} {E : Diagnostic → Prop}

theorem stopsOnly_pure (a : α) : StopsOnly E (pure a) := by
  intro s d s' h
  cases h

theorem stopsOnly_set (s : State) : StopsOnly E (set s) := by
  intro s d s' h
  cases h

theorem stopsOnly_get : StopsOnly E get := by
  intro s d s' h
  cases h

theorem stopsOnly_throw {d : Diagnostic} (h : E d) : StopsOnly E (throw d : Assembly α) := by
  intro s e s' he
  cases he
  exact h

theorem StopsOnly.bind {x : Assembly α} {f : α → Assembly β} (hx : StopsOnly E x)
    (hf : ∀ a, StopsOnly E (f a)) : StopsOnly E (x >>= f) := by
  intro s d s' h
  rcases bind_run_eq_error h with hstop | ⟨a, s₁, -, hstop⟩
  · exact hx s d s' hstop
  · exact hf a s₁ d s' hstop

theorem stopsOnly_reported {r : Report α} (h : Report.TellsOnly E r) :
    StopsOnly E (reported r) := by
  refine stopsOnly_get.bind fun s => ?_
  rcases hr : r.run s.warnings with ⟨result, w⟩
  dsimp only
  refine (stopsOnly_set _).bind fun _ => ?_
  cases result with
  | ok a => exact stopsOnly_pure a
  | error d => exact stopsOnly_throw (h.stops hr)

end StopsOnly

theorem stopsOnly_registerNamed (file : Text) (s : Schema) :
    StopsOnly Ordinary (registerNamed file s) := by
  refine stopsOnly_get.bind fun t => ?_
  split
  · exact stopsOnly_set _
  · next d hd => exact stopsOnly_throw (ordinary_register hd)

section Imports

variable {i : Imports}

theorem stopsOnly_stopImport {α : Type} (d : ImportDecl) (p : Import.Problem) :
    StopsOnly Ordinary (stopImport i d p : Assembly α) :=
  stopsOnly_throw (ordinary_import p _ _)

theorem stopsOnly_mergeImport (d : ImportDecl) (path : Path) (types : List Registry.Entry)
    (messages : List Message) : StopsOnly Ordinary (mergeImport i d path types messages) := by
  refine stopsOnly_get.bind fun s => ?_
  refine (stopsOnly_set _).bind fun _ => ?_
  split
  · exact stopsOnly_stopImport d _
  · exact stopsOnly_pure _

theorem stopsOnly_importDocument (d : ImportDecl) (path : Path) :
    StopsOnly Ordinary (importDocument i d path) := by
  rcases importDocument_eq i d path with ⟨document, -, heq⟩ | ⟨p, -, heq⟩
  · rw [heq]
    exact stopsOnly_mergeImport d path _ _
  · rw [heq]
    exact stopsOnly_stopImport d p

/-- The sources that the loader loads fail with no error for a type that is never read. -/
def Imports.LoadsOrdinary (i : Imports) : Prop :=
  ∀ load ∈ i.loader, ∀ path session, ∀ d ∈ (load path session).failure, Ordinary d

theorem stopsOnly_importSource (hi : i.LoadsOrdinary) (d : ImportDecl) (path : Path) :
    StopsOnly Ordinary (importSource i d path) := by
  unfold importSource
  split
  · exact stopsOnly_stopImport d _
  · next load hload =>
    refine stopsOnly_get.bind fun s => ?_
    refine (stopsOnly_set _).bind fun _ => ?_
    split
    · next failure hfailure => exact stopsOnly_throw (hi load hload _ _ failure hfailure)
    · exact stopsOnly_mergeImport d path _ _

theorem stopsOnly_importFile (hi : i.LoadsOrdinary) (d : ImportDecl) (location : Text) :
    StopsOnly Ordinary (importFile i d location) := by
  refine stopsOnly_get.bind fun s => ?_
  split
  · exact stopsOnly_stopImport d _
  · dsimp only
    split
    · exact stopsOnly_stopImport d _
    · split
      · exact stopsOnly_pure _
      · split
        · exact stopsOnly_stopImport d _
        · refine (stopsOnly_set _).bind fun _ => ?_
          split
          · exact stopsOnly_importSource hi d _
          · exact stopsOnly_importDocument d _

end Imports

section Units

variable {imports : Option Imports} (hi : ∀ i ∈ imports, i.LoadsOrdinary) (c : Context)
  (inProtocol : Bool)

include hi

theorem stopsOnly_importDeclared (d : ImportDecl) :
    StopsOnly Ordinary (importDeclared c imports inProtocol d) := by
  refine (stopsOnly_reported (permitsFields_ordinary.decoded c _ _)).bind fun location => ?_
  cases imports with
  | none => exact stopsOnly_reported (permitsFields_ordinary.stop c ⟨id, by simp [Problem.kind]⟩ _)
  | some i =>
    refine stopsOnly_get.bind fun s => ?_
    refine (stopsOnly_importFile (hi i rfl) d location).bind fun _ => ?_
    split
    · exact stopsOnly_get.bind fun s => stopsOnly_set _
    · exact stopsOnly_pure _

theorem stopsOnly_addDeclaration {d : Declaration} (hd : d.WellFormed) :
    StopsOnly Ordinary (addDeclaration c imports inProtocol d) := by
  cases d with
  | file d => exact stopsOnly_importDeclared hi c inProtocol d
  | record d =>
    have hrecord := permitsFields_ordinary.recordOf c fun f hf =>
      guarded_of_wellFormed ((show d.WellFormed from hd).fields f hf).type
    exact (stopsOnly_reported hrecord).bind fun s => stopsOnly_registerNamed _ s
  | enum d =>
    have henum := Report.tellsOnly_ofExcept (permitsFields_ordinary.enumOf c d)
    exact (stopsOnly_reported henum).bind fun s => stopsOnly_registerNamed _ s
  | fixed d =>
    have hfixed := Report.tellsOnly_ofExcept (permitsFields_ordinary.fixedOf c d)
    exact (stopsOnly_reported hfixed).bind fun s => stopsOnly_registerNamed _ s
  | message d =>
    have hwell : d.WellFormed := hd
    have hresult : ∀ t, d.result = .value t → Guarded Ordinary 0 t := by
      intro t ht
      have hvalue := hwell.result
      rw [ht] at hvalue
      exact guarded_of_wellFormed hvalue.2
    have hmessage := permitsFields_ordinary.messageOf c hresult fun p hp =>
      guarded_of_wellFormed (hwell.parameters p hp).type
    refine (stopsOnly_reported hmessage).bind fun message => ?_
    refine stopsOnly_get.bind fun s => ?_
    split
    · exact stopsOnly_reported (permitsFields_ordinary.stop c ⟨id, by simp [Problem.kind]⟩ _)
    · exact stopsOnly_set _

theorem stopsOnly_addDeclarations {ds : List Declaration} (hds : ∀ d ∈ ds, d.WellFormed) :
    StopsOnly Ordinary (addDeclarations c imports inProtocol ds) := by
  induction ds with
  | nil => exact stopsOnly_pure _
  | cons d ds ih =>
    obtain ⟨hd, hrest⟩ := List.forall_mem_cons.mp hds
    exact (stopsOnly_addDeclaration hi c inProtocol hd).bind fun _ => ih hrest

/-- A well-formed unit is built without an error for a type that is never read. -/
theorem stopsOnly_addUnit (file : Text) {u : SourceUnit} (hu : u.WellFormed) :
    StopsOnly Ordinary (addUnit file imports u) := by
  have hds := hu.declaration
  have hmain := hu.main
  refine (stopsOnly_reported (tellsOnly_warnOrphans _ u.orphans)).bind fun _ => ?_
  obtain ⟨body, orphans⟩ := u
  cases body with
  | protocol d =>
    have hset := Report.tellsOnly_ofExcept
      (permitsFields_ordinary.collect file { space := true } d.annotations (by simp))
    refine (stopsOnly_reported hset).bind fun set => ?_
    have hname := Report.tellsOnly_ofExcept
      (permitsFields_ordinary.declaredName { file := file } d.name set)
    refine (stopsOnly_reported hname).bind fun q => ?_
    refine (stopsOnly_addDeclarations hi _ true hds).bind fun _ => ?_
    exact stopsOnly_get.bind fun s => stopsOnly_pure _
  | schemas space main ds =>
    refine (stopsOnly_reported (permitsFields_ordinary.scopeOf _ space)).bind fun scope => ?_
    refine (stopsOnly_addDeclarations hi _ false hds).bind fun _ => ?_
    cases main with
    | none => exact stopsOnly_get.bind fun s => stopsOnly_pure _
    | some t =>
      have htype := permitsFields_ordinary.schemaOf ⟨file, scope⟩ 0 t
        (guarded_of_wellFormed (hmain t rfl))
      refine (stopsOnly_reported htype).bind fun schema => ?_
      exact stopsOnly_get.bind fun s => stopsOnly_pure _

end Units

end Build

open Build

namespace Compilation

/-- A source is read before it is built, so that the build only gets a well-formed unit. -/
theorem ordinary_of_buildSource {imports : Imports} (hi : imports.LoadsOrdinary) (source : Text)
    (s : State) (d : Diagnostic) (h : (buildSource imports source s).1 = .error (.declaration d)) :
    Ordinary d := by
  unfold buildSource at h
  dsimp only at h
  split at h
  · cases h
  · next u hu =>
    have hstops : StopsOnly Ordinary (addUnit imports.importer.text (some imports) u) :=
      stopsOnly_addUnit (fun i hmem => by cases hmem; exact hi) _ (wellFormed_of_treeOf hu)
    split at h
    · cases h
    · next e s' hr =>
      have he : e = d := by simpa using h
      exact he ▸ hstops s e s' hr

/-- The sources that are loaded have been read before they are built, so their build is no
exception. -/
theorem loadsOrdinary_loader (tree : FileTree) (importer : Path) (n : Nat) :
    Imports.LoadsOrdinary ⟨tree, importer, loader tree n⟩ := by
  induction n generalizing importer with
  | zero => simp [Imports.LoadsOrdinary, loader]
  | succ n ih =>
    rintro load ⟨⟩ path session d hd
    have hfault (kind : Diagnostic.Kind) (message : Text) (help : Option Text)
        (related : List Diagnostic) (h : kind ≠ .nestingTooDeep ∧ kind ≠ .syntaxError) :
        Ordinary { kind := kind, message := message, file := path.text, help := help
                   related := related } := ordinary_of_kind h
    unfold loadSource at hd
    dsimp only at hd
    split at hd
    · cases hd
      exact hfault _ _ _ _ (by simp)
    · next source _ =>
      have hbuild := ordinary_of_buildSource (ih path) source
        { registry := { file := path.text }, session := session }
      split at hd
      · cases hd
        exact hfault _ _ _ _ (by simp)
      · next e s hr =>
        have he : e = d := by simpa using hd
        exact hbuild d (he ▸ congrArg Prod.fst hr)
      · cases hd
      · cases hd

end Compilation

namespace SourceUnit

/-- What is read without a problem is built from its layout to the end, and neither a type in it nor
one in a source that it imports is refused for its depth or its keyword. -/
theorem build_unguarded {tokens : List Token} {docs : List DocComment} {u : SourceUnit}
    (h : ofTokens tokens docs = (u, none)) :
    u.BuildsFromLayout ∧
      ∀ (file : Text) (imports : Option Imports),
        (∀ i ∈ imports, ∃ n, i.loader = Compilation.loader i.tree n) →
        ∀ s d s', (addUnit file imports u).run s = (.error d, s') →
          ∀ p : Problem, p.IsGuard → ∀ place span, d ≠ p.diagnostic place span := by
  have hu : u.WellFormed := by
    have hread : (ofTokens tokens docs).2 = none := by rw [h]
    have hwell := wellFormed_of_ofTokens hread
    rwa [h] at hwell
  refine ⟨hu.buildsFromLayout, fun file imports hloader s d s' hrun p hp place span => ?_⟩
  have hi : ∀ i ∈ imports, i.LoadsOrdinary := by
    intro i hmem
    obtain ⟨n, hn⟩ := hloader i hmem
    rw [Imports.LoadsOrdinary, hn]
    exact Compilation.loadsOrdinary_loader i.tree i.importer n
  exact stopsOnly_addUnit hi file hu s d s' hrun p place span hp

/-- A protocol with nested types and a message without a result, in which a field is declared
twice. -/
def repeatedFieldSource : Text :=
  "protocol P \x7b record R \x7b map<R> r; int r; \x7d void f(); \x7d"

def repeatedFieldUnit : SourceUnit :=
  let stream := TokenStream.ofSource repeatedFieldSource "p.avdl"
  (ofTokens stream.tokens stream.docs).1

/-- An empty directory to import from. -/
def noFiles : Imports := ⟨{}, .ofText "p.avdl", Compilation.loader {} 1⟩

theorem repeatedFieldUnit_build :
    ofTokens (TokenStream.ofSource repeatedFieldSource "p.avdl").tokens
        (TokenStream.ofSource repeatedFieldSource "p.avdl").docs = (repeatedFieldUnit, none) ∧
      repeatedFieldUnit.BuildsFromLayout ∧
      (∃ n, noFiles.loader = Compilation.loader noFiles.tree n) ∧
      ∃ d s', (addUnit "p.avdl" (some noFiles) repeatedFieldUnit).run { registry := {} } =
          (.error d, s') ∧
        ∀ p : Problem, p.IsGuard → ∀ place span, d ≠ p.diagnostic place span := by
  have hread : ofTokens (TokenStream.ofSource repeatedFieldSource "p.avdl").tokens
      (TokenStream.ofSource repeatedFieldSource "p.avdl").docs = (repeatedFieldUnit, none) :=
    Prod.ext rfl (Option.isNone_iff_eq_none.mp (by decide +kernel))
  have hloader : ∀ i ∈ some noFiles, ∃ n, i.loader = Compilation.loader i.tree n := by
    rintro i ⟨⟩
    exact ⟨1, rfl⟩
  have hfails : ((addUnit "p.avdl" (some noFiles) repeatedFieldUnit).run
      { registry := {} }).1.toBool = false := by
    decide +kernel
  obtain ⟨hlayout, hguards⟩ := build_unguarded hread
  rcases hrun : (addUnit "p.avdl" (some noFiles) repeatedFieldUnit).run { registry := {} } with
    ⟨result, s'⟩
  rw [hrun] at hfails
  cases result with
  | ok file => cases hfails
  | error d =>
    exact ⟨hread, hlayout, ⟨1, rfl⟩, d, s', rfl, hguards _ _ hloader _ d s' hrun⟩

end SourceUnit

end AvroIdl
