import AvroIdl.Build.Assembly
import AvroIdl.Proofs.Guarantee
import AvroIdl.Proofs.Printing

/-!
# What computations report

Whatever stops a computation on declarations is an error, whatever it adds to the warnings is a
warning, and no warning is lost. The declarations themselves never give an import cycle. The lemmas
are about any property of errors that holds of the problems a computation can run into.
-/
namespace AvroIdl

namespace Diagnostic

/-- An error that is no import cycle and has none with it. -/
structure IsError (d : Diagnostic) : Prop where
  error : d.isWarning = false
  acyclic : d.kind ≠ .importCycle
  related : ∀ r ∈ d.related, r.kind ≠ .importCycle

theorem isError_of_kind {d : Diagnostic} (error : d.kind.isWarning = false)
    (acyclic : d.kind ≠ .importCycle) (related : d.related = []) : d.IsError :=
  ⟨error, acyclic, by simp [related]⟩

/-- An error that is told, and not thrown. -/
structure IsTold (d : Diagnostic) : Prop extends IsError d where
  caught : d.isFault = false

theorem isTold_of_kind {d : Diagnostic} (error : d.kind.isWarning = false)
    (acyclic : d.kind ≠ .importCycle) (caught : d.kind ≠ .fault) (related : d.related = []) :
    d.IsTold :=
  ⟨isError_of_kind error acyclic related, by simpa [isFault] using caught⟩

/-- A warning with nothing else to it. -/
structure IsNotice (d : Diagnostic) : Prop where
  warning : d.isWarning = true
  related : d.related = []

theorem IsNotice.kind_ne {d : Diagnostic} (h : d.IsNotice) : d.kind ≠ .importCycle := by
  intro hkind
  have hwarning := h.warning
  rw [isWarning, hkind] at hwarning
  cases hwarning

end Diagnostic

/-- The computation stops only where `E` holds. -/
def RefusesOnly {α : Type} (E : Diagnostic → Prop) (x : Except Diagnostic α) : Prop :=
  ∀ d, x = .error d → E d

/-- The computation stops at errors only. -/
def Refuses {α : Type} (x : Except Diagnostic α) : Prop := ∀ d, x = .error d → d.IsError

section Refuses

variable {α β : Type} {E : Diagnostic → Prop}

theorem RefusesOnly.bind {x : Except Diagnostic α} {f : α → Except Diagnostic β}
    (hx : RefusesOnly E x) (hf : ∀ a, RefusesOnly E (f a)) : RefusesOnly E (x >>= f) := by
  intro d h
  cases x with
  | ok a => exact hf a d h
  | error e =>
    cases h
    exact hx d rfl

theorem refusesOnly_ok (a : α) : RefusesOnly E (.ok a) := fun _ h => nomatch h

theorem refusesOnly_error {d : Diagnostic} (h : E d) :
    RefusesOnly E (.error d : Except Diagnostic α) := by
  intro e he
  cases he
  exact h

theorem RefusesOnly.refuses {x : Except Diagnostic α} (h : RefusesOnly Diagnostic.IsError x) :
    Refuses x := h

end Refuses

namespace Report

variable {α β : Type}

/-- The computation stops only where `E` holds, and adds only warnings to those before. What it
gives and adds does not depend on these. -/
def TellsOnly (E : Diagnostic → Prop) (x : Report α) : Prop :=
  ∃ result added, (∀ w, x.run w = (result, w ++ added)) ∧
    (∀ d, result = .error d → E d) ∧ ∀ d ∈ added, d.IsNotice

section TellsOnly

variable {E : Diagnostic → Prop}

theorem tellsOnly_pure (a : α) : TellsOnly E (pure a) :=
  ⟨.ok a, [], fun w => by rw [List.append_nil]; rfl, fun _ h => (nomatch h), by simp⟩

theorem tellsOnly_fail {d : Diagnostic} (h : E d) : TellsOnly E (fail d : Report α) := by
  refine ⟨.error d, [], fun w => by rw [List.append_nil]; rfl, fun e he => ?_, by simp⟩
  cases he
  exact h

theorem tellsOnly_warn {d : Diagnostic} (h : d.IsNotice) : TellsOnly E (warn d) :=
  ⟨.ok ⟨⟩, [d], fun _ => rfl, fun _ he => (nomatch he), by simpa using h⟩

theorem TellsOnly.bind {x : Report α} {f : α → Report β} (hx : TellsOnly E x)
    (hf : ∀ a, TellsOnly E (f a)) : TellsOnly E (x >>= f) := by
  obtain ⟨result, added, hrun, herror, hadded⟩ := hx
  cases result with
  | ok a =>
    obtain ⟨result', added', hrun', herror', hadded'⟩ := hf a
    refine ⟨result', added ++ added', fun w => ?_, herror', fun d hd => ?_⟩
    · rw [bind_run_of_ok (hrun w), hrun', List.append_assoc]
    · exact (List.mem_append.mp hd).elim (hadded d) (hadded' d)
  | error e =>
    refine ⟨.error e, added, fun w => bind_run_of_error (hrun w), fun d hd => ?_, hadded⟩
    cases hd
    exact herror e rfl

theorem tellsOnly_ofExcept {x : Except Diagnostic α} (h : RefusesOnly E x) :
    TellsOnly E (ofExcept x) := by
  cases x with
  | ok a => exact tellsOnly_pure a
  | error d => exact tellsOnly_fail (h d rfl)

theorem TellsOnly.stops {x : Report α} (h : TellsOnly E x) {w w' : List Diagnostic}
    {d : Diagnostic} (hrun : x.run w = (.error d, w')) : E d := by
  obtain ⟨result, added, hadds, herror, -⟩ := h
  rw [hadds w] at hrun
  cases hrun
  exact herror d rfl

end TellsOnly

/-- The computation stops at errors only, and adds only warnings to those before. What it gives and
adds does not depend on these. -/
def Tells (x : Report α) : Prop :=
  ∃ result added, (∀ w, x.run w = (result, w ++ added)) ∧
    (∀ d, result = .error d → d.IsError) ∧ ∀ d ∈ added, d.IsNotice

/-- What is told after some warnings. -/
theorem Tells.after {x : Report α} (h : x.Tells) (w : List Diagnostic) :
    (∀ d, (x.run w).1 = .error d → d.IsError) ∧
      ∃ added, (x.run w).2 = w ++ added ∧ ∀ d ∈ added, d.IsNotice := by
  obtain ⟨result, added, hrun, herror, hadded⟩ := h
  rw [hrun w]
  exact ⟨herror, added, rfl, hadded⟩

/-- The warnings before do not change what the computation gives. -/
theorem Tells.steady {x : Report α} (h : x.Tells) (w w' : List Diagnostic) :
    (x.run w).1 = (x.run w').1 := by
  obtain ⟨result, added, hrun, -⟩ := h
  rw [hrun w, hrun w']

theorem tells_ofExcept {x : Except Diagnostic α} (h : Refuses x) : Tells (ofExcept x) :=
  tellsOnly_ofExcept h

end Report

theorem Literal.Problem.isError (p : Literal.Problem) (file : Text) (span : Span) :
    (p.diagnostic file span).IsError :=
  Diagnostic.isError_of_kind (by cases p <;> rfl) (by cases p <;> simp [diagnostic, kind]) rfl

namespace Build

open Report

theorem Problem.isError (p : Problem) (file : Text) (span : Span) :
    (p.diagnostic file span).IsError :=
  Diagnostic.isError_of_kind (by cases p <;> rfl) (by cases p <;> simp [diagnostic, kind]) rfl

theorem Warning.isNotice (w : Warning) (file : Text) (span : Span) :
    (w.diagnostic file span).IsNotice :=
  ⟨by cases w <;> rfl, rfl⟩

/-- The problems of types that are never read: a type stands inside too many others, or its keyword
names none. -/
def Problem.IsGuard : Problem → Prop
  | tooDeep | unexpectedKeyword _ => True
  | _ => False

theorem Problem.IsGuard.cases {p : Problem} (h : p.IsGuard) :
    p = .tooDeep ∨ ∃ k, p = .unexpectedKeyword k := by
  cases p with
  | tooDeep => exact .inl rfl
  | unexpectedKeyword k => exact .inr ⟨k, rfl⟩
  | _ => cases h

/-- The problems of literals, and all others but defaults that do not fit, those of types that are
never read, and what the printer throws. -/
structure Permits (E : Diagnostic → Prop) : Prop where
  literal : ∀ (p : Literal.Problem) (file : Text) (span : Span), E (p.diagnostic file span)
  problem : ∀ (p : Problem) (file : Text) (span : Span),
    p.kind ≠ .invalidDefault ∧ ¬p.IsGuard ∧ p.kind ≠ .fault → E (p.diagnostic file span)

/-- Also the problems of types that are never read. -/
structure Admits (E : Diagnostic → Prop) : Prop extends Permits E where
  guard : ∀ (p : Problem) (file : Text) (span : Span), p.IsGuard → E (p.diagnostic file span)

/-- Also defaults that do not fit. -/
structure PermitsDefaults (E : Diagnostic → Prop) : Prop extends Permits E where
  default : ∀ (p : Problem) (file : Text) (span : Span),
    p.kind = .invalidDefault → E (p.diagnostic file span)

/-- What the printer throws. -/
def PermitsFaults (E : Diagnostic → Prop) : Prop :=
  ∀ (p : Problem) (file : Text) (span : Span), p.kind = .fault → E (p.diagnostic file span)

/-- All problems but those of types that are never read. -/
structure PermitsFields (E : Diagnostic → Prop) : Prop extends PermitsDefaults E where
  fault : PermitsFaults E

theorem admits_isError : Admits Diagnostic.IsError where
  literal p file span := p.isError file span
  problem p file span _ := p.isError file span
  guard p file span _ := p.isError file span

theorem permitsFields_isError : PermitsFields Diagnostic.IsError where
  toPermits := admits_isError.toPermits
  default p file span _ := p.isError file span
  fault p file span _ := p.isError file span

theorem admits_kind_ne : Admits fun d => d.kind ≠ .invalidDefault where
  literal p _ _ := by cases p <;> simp [Literal.Problem.diagnostic, Literal.Problem.kind]
  problem _ _ _ h := h.1
  guard _ _ _ h := by
    rcases h.cases with rfl | ⟨k, rfl⟩ <;> simp [Problem.diagnostic, Problem.kind]

section Names

variable {E : Diagnostic → Prop} (c : Context) (name : Identifier) (set : AnnotationSet)

theorem add_ordinary {targets : Targets} {set : AnnotationSet} {name : Text} {value : Json}
    {p : Problem} (h : set.add targets name value = .error p) :
    p.kind ≠ .invalidDefault ∧ ¬p.IsGuard ∧ (p.kind = .fault → targets.order = true) := by
  simp only [AnnotationSet.add, AnnotationSet.addSpace, AnnotationSet.addAliases,
    AnnotationSet.addOrder, AnnotationSet.addProperty] at h
  grind [Problem.kind, Problem.IsGuard]

namespace Permits

variable (hE : Permits E)

include hE

/-- Only an order can be shown in a message. -/
theorem collect (file : Text) (targets : Targets) (as : List Annotation)
    (hfault : targets.order = true → PermitsFaults E) :
    RefusesOnly E (AnnotationSet.collect file targets as) := by
  intro d h
  unfold AnnotationSet.collect at h
  generalize ({} : AnnotationSet) = set at h
  induction as generalizing set with
  | nil => cases h
  | cons a as ih =>
    rw [AnnotationSet.collectFrom] at h
    split at h
    · next p span _ =>
      cases h
      exact hE.literal p file span
    · split at h
      · next p hadd =>
        cases h
        obtain ⟨hdefault, hguard, horder⟩ := add_ordinary hadd
        by_cases hkind : p.kind = .fault
        · exact hfault (horder hkind) p file a.span hkind
        · exact hE.problem p file a.span ⟨hdefault, hguard, hkind⟩
      · exact ih _ h

theorem declaredName : RefusesOnly E (Build.declaredName c name set) := by
  unfold Build.declaredName
  dsimp only
  split
  · exact refusesOnly_error (hE.problem _ _ _ (by simp [Problem.kind, Problem.IsGuard]))
  · exact refusesOnly_ok _

theorem headOf (doc : Option Text) (as : List Annotation) :
    RefusesOnly E (Build.headOf c name doc as) :=
  (hE.collect c.file _ as (by simp)).bind fun set =>
    (hE.declaredName c name set).bind fun _ => refusesOnly_ok _

end Permits

theorem refuses_collect (file : Text) (targets : Targets) (as : List Annotation) :
    Refuses (AnnotationSet.collect file targets as) :=
  (admits_isError.collect file targets as fun _ => permitsFields_isError.fault).refuses

theorem refuses_declaredName : Refuses (declaredName c name set) :=
  (admits_isError.declaredName c name set).refuses

end Names

section Types

variable {α : Type} {E : Diagnostic → Prop} (c : Context)

theorem tells_stop (p : Problem) (span : Span) : (stop c p span : Report α).Tells :=
  tellsOnly_fail (p.isError c.file span)

theorem isSome_keywordSchema? {k : Keyword} (htype : k.isType = true) (hdecimal : k ≠ .decimal) :
    ∃ s, keywordSchema? k = some s := by
  cases k <;> first | exact ⟨_, rfl⟩ | exact absurd rfl hdecimal | cases htype

/-- Where a type inside `depth` others is refused as one that is never read, `E` holds; or it has no
more levels than it may still have, and is never refused so. -/
def Guarded (E : Diagnostic → Prop) (depth : Nat) (t : TypeNode) : Prop :=
  (∀ (p : Problem) (file : Text) (span : Span), p.IsGuard → E (p.diagnostic file span)) ∨
    ∃ levels, depth + levels ≤ maxNesting ∧ t.Within levels

theorem Guarded.part {depth : Nat} {t part : TypeNode}
    (h : Guarded E depth t) (hpart : ∀ levels, t.Within levels →
      ∃ n, levels = n + 1 ∧ part.Within n) : Guarded E (depth + 1) part := by
  refine h.imp id ?_
  rintro ⟨levels, hlevels, ht⟩
  obtain ⟨n, rfl, hn⟩ := hpart levels ht
  exact ⟨n, by omega, hn⟩

theorem guarded_of_wellFormed {t : TypeNode} (h : t.WellFormed) : Guarded E 0 t :=
  .inr ⟨maxNesting, Nat.le_of_eq (Nat.zero_add _), h⟩

namespace Permits

variable (hE : Permits E)

include hE

theorem stop {p : Problem} (h : p.kind ≠ .invalidDefault ∧ ¬p.IsGuard ∧ p.kind ≠ .fault)
    (span : Span) : TellsOnly E (Build.stop c p span : Report α) :=
  tellsOnly_fail (hE.problem p c.file span h)

theorem decoded (span : Span) (x : Except Literal.Problem α) :
    TellsOnly E (Build.decoded c span x) := by
  cases x with
  | ok a => exact tellsOnly_pure a
  | error p => exact tellsOnly_fail (hE.literal p c.file span)

theorem decodedJson (node : JsonNode) : TellsOnly E (Build.decodedJson c node) := by
  unfold Build.decodedJson
  split
  · exact tellsOnly_pure _
  · exact tellsOnly_fail (hE.literal _ _ _)

theorem decimalSchema (precision : Text) (scale : Option Text) (span : Span) :
    TellsOnly E (Build.decimalSchema c precision scale span) := by
  refine (hE.decoded c span _).bind fun p => ?_
  have hchecked (n : Nat) (written : Text) : TellsOnly E
      (if p < 1 ∨ Decimal.parameterLimit < p then Build.stop c (.decimalPrecision written) span
        else if p < n then Build.stop c (.decimalScale written) span
        else pure (Schema.logicalOver .decimal p n [] (.plain .bytes))) := by
    split
    · exact hE.stop c (by simp [Problem.kind, Problem.IsGuard]) span
    · split
      · exact hE.stop c (by simp [Problem.kind, Problem.IsGuard]) span
      · exact tellsOnly_pure _
  cases scale with
  | none => exact hchecked 0 _
  | some t => exact (hE.decoded c span _).bind fun n => hchecked n _

theorem annotated (mark : TypeMark) (s : Schema) : TellsOnly E (Build.annotated c mark s) := by
  unfold Build.annotated
  split
  · exact tellsOnly_pure s
  · refine (tellsOnly_ofExcept (hE.collect c.file {} mark.annotations (by simp))).bind fun set => ?_
    dsimp only
    split
    · exact (tellsOnly_warn (Warning.isNotice _ _ _)).bind fun _ => tellsOnly_pure _
    · exact tellsOnly_pure _
    · exact tellsOnly_pure _

theorem withMark (mark : TypeMark) (s : Schema) : TellsOnly E (Build.withMark c mark s) := by
  unfold Build.withMark
  split
  · exact tellsOnly_pure s
  · split
    · exact hE.stop c (by simp [Problem.kind, Problem.IsGuard]) _
    · exact tellsOnly_pure _

theorem finished (mark : TypeMark) (s : Schema) : TellsOnly E (Build.finished c mark s) :=
  (hE.annotated c mark s).bind fun s => hE.withMark c mark (placed mark.span s)

theorem checkBranch (seen : List Text) (s : Schema) (span : Span) :
    TellsOnly E (Build.checkBranch c seen s span) := by
  unfold Build.checkBranch
  dsimp only
  split
  · exact hE.stop c (by simp [Problem.kind, Problem.IsGuard]) span
  · split
    · exact hE.stop c (by simp [Problem.kind, Problem.IsGuard]) span
    · exact tellsOnly_pure _

omit hE in
theorem warnAnnotations (as : List Annotation) :
    TellsOnly E (Build.warnAnnotations c as) := by
  induction as with
  | nil => exact tellsOnly_pure _
  | cons a as ih => exact (tellsOnly_warn (Warning.isNotice _ _ _)).bind fun _ => ih

omit hE in
theorem withinNesting {depth : Nat} {t : TypeNode} (h : Guarded E depth t) (span : Span)
    {x : Report α} (hx : TellsOnly E x) :
    TellsOnly E (if maxNesting < depth then Build.stop c .tooDeep span else x) := by
  split
  · next hdeep =>
    rcases h with hguard | ⟨levels, hlevels, -⟩
    · exact tellsOnly_fail (hguard _ _ _ trivial)
    · omega
  · exact hx

mutual

theorem schemaOf (depth : Nat) :
    (node : TypeNode) → Guarded E depth node → TellsOnly E (Build.schemaOf c depth node)
  | .primitive k m, h => by
    rw [Build.schemaOf]
    apply withinNesting c h
    split
    · exact hE.finished c m _
    · next hnone =>
      rcases h with hguard | ⟨levels, -, ht⟩
      · exact tellsOnly_fail (hguard _ _ _ trivial)
      · rw [TypeNode.Within] at ht
        obtain ⟨s, hs⟩ := isSome_keywordSchema? ht.2.1 ht.2.2
        cases hnone.symm.trans hs
  | .decimal precision scale m, h => by
    rw [Build.schemaOf]
    exact withinNesting c h m.span
      ((hE.decimalSchema c precision scale m.span).bind fun s => hE.finished c m s)
  | .reference name m, h => by
    rw [Build.schemaOf]
    exact withinNesting c h m.span (hE.finished c m _)
  | .array items m, h => by
    have hitems : Guarded E (depth + 1) items := h.part fun levels ht => by
      cases levels with
      | zero => cases ht
      | succ n => exact ⟨n, rfl, ht.2.2⟩
    rw [Build.schemaOf]
    exact withinNesting c h m.span
      ((schemaOf (depth + 1) items hitems).bind fun s => hE.finished c m _)
  | .map values m, h => by
    have hvalues : Guarded E (depth + 1) values := h.part fun levels ht => by
      cases levels with
      | zero => cases ht
      | succ n => exact ⟨n, rfl, ht.2.2⟩
    rw [Build.schemaOf]
    exact withinNesting c h m.span
      ((schemaOf (depth + 1) values hvalues).bind fun s => hE.finished c m _)
  | .union branches m, h => by
    have hbranches : ∀ t ∈ branches, Guarded E (depth + 1) t := fun t hmem =>
      h.part fun levels ht => by
        cases levels with
        | zero => cases ht
        | succ n => exact ⟨n, rfl, ht.2.2.2 t hmem⟩
    rw [Build.schemaOf]
    refine withinNesting c h m.span ?_
    exact (branchesOf (depth + 1) [] branches hbranches).bind fun schemas =>
      (warnAnnotations c m.annotations).bind fun _ => tellsOnly_pure _

theorem branchesOf (depth : Nat) (seen : List Text) :
    (nodes : List TypeNode) → (∀ t ∈ nodes, Guarded E depth t) →
      TellsOnly E (Build.branchesOf c depth seen nodes)
  | [], _ => by
    rw [Build.branchesOf]
    exact tellsOnly_pure _
  | node :: nodes, h => by
    obtain ⟨hnode, hnodes⟩ := List.forall_mem_cons.mp h
    rw [Build.branchesOf]
    refine (schemaOf depth node hnode).bind fun s => ?_
    refine (hE.checkBranch c seen s node.mark.span).bind fun key => ?_
    exact (branchesOf depth (key :: seen) nodes hnodes).bind fun _ => tellsOnly_pure _

end

end Permits

theorem tellsOnly_warnOrphans (spans : List Span) : TellsOnly E (warnOrphans c spans) := by
  induction spans with
  | nil => exact tellsOnly_pure _
  | cons span spans ih => exact (tellsOnly_warn (Warning.isNotice _ _ _)).bind fun _ => ih

theorem Permits.scopeOf (hE : Permits E) (space : Option Identifier) :
    TellsOnly E (Build.scopeOf c space) := by
  cases space with
  | none => exact tellsOnly_pure _
  | some i =>
    rw [Build.scopeOf]
    split
    · exact tellsOnly_pure _
    · exact hE.stop c (by simp [Problem.kind, Problem.IsGuard]) _

theorem Admits.typeOf (hE : Admits E) (node : TypeNode) : TellsOnly E (Build.typeOf c node) :=
  hE.schemaOf c 0 node (.inl hE.guard)

theorem tells_decoded (span : Span) (x : Except Literal.Problem α) : (decoded c span x).Tells :=
  admits_isError.decoded c span x

theorem tells_typeOf (node : TypeNode) : (typeOf c node).Tells := admits_isError.typeOf c node

end Types

section Declarations

variable {E : Diagnostic → Prop} (c : Context)

namespace PermitsDefaults

variable (hE : PermitsDefaults E)

include hE

theorem stop {α : Type} {p : Problem} (h : ¬p.IsGuard ∧ p.kind ≠ .fault) (span : Span) :
    TellsOnly E (Build.stop c p span : Report α) := by
  by_cases hdefault : p.kind = .invalidDefault
  · exact tellsOnly_fail (hE.default p c.file span hdefault)
  · exact hE.toPermits.stop c ⟨hdefault, h⟩ span

theorem defaultOf (name owner : Text) (s : Schema) (node : Option JsonNode) :
    TellsOnly E (Build.defaultOf c name owner s node) := by
  cases node with
  | none => exact tellsOnly_pure _
  | some node =>
    refine (hE.decodedJson c node).bind fun value => ?_
    dsimp only
    split
    · exact hE.stop c ⟨id, by simp [Problem.kind]⟩ _
    · exact tellsOnly_pure _

theorem symbolsOf (enum : Text) (seen : List Text) (is : List Identifier) :
    RefusesOnly E (Build.symbolsOf c enum seen is) := by
  induction is generalizing seen with
  | nil => exact refusesOnly_ok _
  | cons i is ih =>
    rw [Build.symbolsOf]
    split
    · exact refusesOnly_error (hE.problem _ _ _ (by simp [Problem.kind, Problem.IsGuard]))
    · split
      · exact refusesOnly_error (hE.problem _ _ _ (by simp [Problem.kind, Problem.IsGuard]))
      · exact (ih _).bind fun _ => refusesOnly_ok _

theorem enumOf (d : EnumDecl) : RefusesOnly E (Build.enumOf c d) := by
  refine (hE.headOf c d.name d.doc d.annotations).bind fun p => ?_
  refine (hE.symbolsOf c p.1.full [] d.symbols).bind fun symbols => ?_
  split
  · exact refusesOnly_ok _
  · split
    · exact refusesOnly_ok _
    · exact refusesOnly_error (hE.default _ _ _ rfl)

theorem fixedOf (d : FixedDecl) : RefusesOnly E (Build.fixedOf c d) := by
  refine (hE.headOf c d.name d.doc d.annotations).bind fun p => ?_
  dsimp only
  split
  · exact refusesOnly_ok _
  · exact refusesOnly_error (hE.literal _ _ _)

theorem responseOf (name : Text) (isOneWay : Bool) {result : ResultType}
    (htype : ∀ t, result = .value t → Guarded E 0 t) :
    TellsOnly E (Build.responseOf c name isOneWay result) := by
  cases result with
  | void span => exact tellsOnly_pure _
  | value type =>
    rw [Build.responseOf]
    split
    · exact hE.stop c ⟨id, by simp [Problem.kind]⟩ _
    · exact hE.schemaOf c 0 type (htype type rfl)

/-- What a field may stop at beside its annotations. -/
theorem fieldOf (owner : Text) {type : TypeNode} (typeDoc : Option Text) (d : Declarator)
    (htype : Guarded E 0 type)
    (hcollect : RefusesOnly E
      (AnnotationSet.collect c.file { aliases := true, order := true } d.annotations)) :
    TellsOnly E (Build.fieldOf c owner type typeDoc d) := by
  refine (tellsOnly_ofExcept hcollect).bind fun set => ?_
  dsimp only
  split
  · exact hE.stop c ⟨id, by simp [Problem.kind]⟩ _
  · refine (hE.schemaOf c 0 type htype).bind fun s => ?_
    exact (hE.defaultOf c _ owner s d.default).bind fun _ => tellsOnly_pure _

end PermitsDefaults

namespace PermitsFields

variable (hE : PermitsFields E)

include hE

theorem fieldOf (owner : Text) {type : TypeNode} (typeDoc : Option Text) (d : Declarator)
    (htype : Guarded E 0 type) : TellsOnly E (Build.fieldOf c owner type typeDoc d) :=
  hE.toPermitsDefaults.fieldOf c owner typeDoc d htype
    (hE.collect c.file _ d.annotations fun _ => hE.fault)

theorem declaratorFields (owner : Text) {f : FieldDecl} (htype : Guarded E 0 f.type)
    (seen : List Text) (ds : List Declarator) :
    TellsOnly E (Build.declaratorFields c owner f seen ds) := by
  induction ds generalizing seen with
  | nil => exact tellsOnly_pure _
  | cons d ds ih =>
    refine (hE.fieldOf c owner f.doc d htype).bind fun field => ?_
    split
    · exact hE.stop c ⟨id, by simp [Problem.kind]⟩ _
    · exact (ih _).bind fun _ => tellsOnly_pure _

theorem recordFields (owner : Text) (seen : List Text) {fs : List FieldDecl}
    (htypes : ∀ f ∈ fs, Guarded E 0 f.type) :
    TellsOnly E (Build.recordFields c owner seen fs) := by
  induction fs generalizing seen with
  | nil => exact tellsOnly_pure _
  | cons f fs ih =>
    obtain ⟨hf, hfs⟩ := List.forall_mem_cons.mp htypes
    exact (hE.declaratorFields c owner hf seen f.declarators).bind fun fields =>
      (ih _ hfs).bind fun _ => tellsOnly_pure _

theorem recordOf {d : RecordDecl} (htypes : ∀ f ∈ d.fields, Guarded E 0 f.type) :
    TellsOnly E (Build.recordOf c d) :=
  (tellsOnly_ofExcept (hE.headOf c d.name d.doc d.annotations)).bind fun _ =>
    (hE.recordFields _ _ [] htypes).bind fun _ => tellsOnly_pure _

theorem parametersOf (owner : Text) (seen : List Text) {ps : List Parameter}
    (htypes : ∀ p ∈ ps, Guarded E 0 p.type) :
    TellsOnly E (Build.parametersOf c owner seen ps) := by
  induction ps generalizing seen with
  | nil => exact tellsOnly_pure _
  | cons p ps ih =>
    obtain ⟨hp, hps⟩ := List.forall_mem_cons.mp htypes
    refine (hE.fieldOf c owner none p.declarator hp).bind fun field => ?_
    split
    · exact hE.stop c ⟨id, by simp [Problem.kind]⟩ _
    · exact (ih _ hps).bind fun _ => tellsOnly_pure _

theorem messageOf {d : MessageDecl} (hresult : ∀ t, d.result = .value t → Guarded E 0 t)
    (hparameters : ∀ p ∈ d.parameters, Guarded E 0 p.type) :
    TellsOnly E (Build.messageOf c d) := by
  refine (tellsOnly_ofExcept (hE.collect c.file {} d.annotations (by simp))).bind fun set => ?_
  dsimp only
  split
  · exact hE.stop c ⟨id, by simp [Problem.kind]⟩ _
  · exact (hE.responseOf c _ d.isOneWay hresult).bind fun _ =>
      (hE.parametersOf c _ [] hparameters).bind fun _ => tellsOnly_pure _

end PermitsFields

theorem guarded_isError (depth : Nat) (t : TypeNode) : Guarded Diagnostic.IsError depth t :=
  .inl admits_isError.guard

theorem tells_recordOf (d : RecordDecl) : (recordOf c d).Tells :=
  permitsFields_isError.recordOf c fun f _ => guarded_isError 0 f.type

theorem refuses_enumOf (d : EnumDecl) : Refuses (enumOf c d) :=
  (permitsFields_isError.enumOf c d).refuses

theorem refuses_fixedOf (d : FixedDecl) : Refuses (fixedOf c d) :=
  (permitsFields_isError.fixedOf c d).refuses

theorem tells_messageOf (d : MessageDecl) : (messageOf c d).Tells :=
  permitsFields_isError.messageOf c (fun t _ => guarded_isError 0 t)
    fun p _ => guarded_isError 0 p.type

end Declarations

end Build

end AvroIdl
