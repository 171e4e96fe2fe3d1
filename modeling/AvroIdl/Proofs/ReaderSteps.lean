import AvroIdl.Proofs.DecidedGrammar

/-!
# What holds of every reader

Readers are put together from a few steps, which look no further than the current token. A property
that the steps have and that passes on to what is built from them holds of the reader of every
construct.
-/
namespace AvroIdl

/-- The cursor with more tokens after those that are left. -/
def Cursor.extend (c : Cursor) (more : List Token) : Cursor := { c with rest := c.rest ++ more }

namespace Reader

variable {α β : Type}

/-- As long as the end of the file is ahead, the tokens after it make no difference. -/
def Looks (f : Cursor → α) : Prop := ∀ c more, c.HasEnd → f (c.extend more) = f c

/-- Wherever the test holds, a token is passed or the reading fails. -/
def Advances (test : Cursor → Bool) (x : Reader α) : Prop :=
  ∀ c, test c = true → c.HasEnd →
    (x.run c).2.failure ≠ none ∨ (x.run c).2.rest.length < c.rest.length

/-- The steps of readers have the property, and it passes on from what is done first and what is
done then to both. -/
structure Sequential (R : ∀ {α : Type}, Reader α → Prop) : Prop where
  of_pure : ∀ {α : Type} (a : α), R (pure a : Reader α)
  bind : ∀ {α β : Type} {x : Reader α} {f : α → Reader β}, R x → (∀ a, R (f a)) → R (x >>= f)
  of_get : ∀ {α : Type} {f : Cursor → Reader α}, Looks f → (∀ c, R (f c)) → R (get >>= f)
  of_next : R (modify Cursor.next)
  of_fail : ∀ {p : Cursor → SyntaxProblem}, Looks p → R (modify fun c => c.fail (p c))

/-- The property also passes on from what is repeated. -/
structure Compositional (R : ∀ {α : Type}, Reader α → Prop) : Prop extends Sequential @R where
  of_many : ∀ {α : Type} {test : Cursor → Bool} {x : Reader α}, Looks test →
    (∀ c, c.failure ≠ none → test c = false) → Advances test x → R x → R (many test x)
  of_separated : ∀ {α : Type} {x : Reader α}, R x → R (separated x)

section Cursors

variable {c : Cursor} {more : List Token}

theorem current_extend (h : c.HasEnd) : (c.extend more).current = c.current := by
  obtain ⟨t, ts, hr, hc⟩ := h.rest_eq_cons
  rw [hc, Cursor.current, Cursor.extend, hr]
  rfl

theorem looks_current : Looks Cursor.current := fun _ _ => current_extend

theorem looks_atEnd : Looks Cursor.atEnd := fun c more h => by
  rw [Cursor.atEnd, current_extend h, Cursor.atEnd]

theorem looks_isAt (k : Token.Kind) : Looks (·.isAt k) := fun c more h => by
  simp only [Cursor.isAt, current_extend h]
  rfl

theorem looks_isAtName : Looks Cursor.isAtName := fun c more h => by
  simp only [Cursor.isAtName, current_extend h]
  rfl

theorem looks_primitive? : Looks Cursor.primitive? := fun c more h => by
  simp only [Cursor.primitive?, current_extend h]
  rfl

theorem looks_inBraces : Looks inBraces := fun c more h => by
  simp only [inBraces, looks_isAt _ c more h, looks_atEnd c more h]
  rfl

end Cursors

theorem Decides.advances {P : Token.Kind → Prop} {pre : Cursor → Prop} {test : Cursor → Bool}
    {x : Reader α} {L N : TokenGrammar.Kinds} (hx : Decides pre x L N)
    (hL : TokenGrammar.Leads P L) (hpre : ∀ c, test c = true → c.failure = none ∧ pre c) :
    Advances test x := by
  intro c htest hend
  obtain ⟨hunfailed, hc⟩ := hpre c htest
  cases hx.decided c hc hunfailed hend with
  | deep p span nesting failed => exact .inl (by simp [failed])
  | refuses u t v passed expected failed viable none => exact .inl (by simp [failed])
  | reads u t v passed rest unfailed ahead mem only =>
    exact .inr (length_lt_of_leads hL (by rw [passed, rest]) mem)

theorem leads_zero (P : Token.Kind → Prop) : TokenGrammar.Leads P 0 := by
  rintro w ⟨⟩

theorem of_ite {R : ∀ {α : Type}, Reader α → Prop} {b : Bool} {x y : Reader α} (hx : R x)
    (hy : R y) :
    R (if b = true then x else y) := by
  split
  · exact hx
  · exact hy

namespace Sequential

variable {R : ∀ {α : Type}, Reader α → Prop} {x : Reader α}

variable (hR : Sequential @R)
include hR

theorem returned {f : Cursor → α} (hf : Looks f) : R (get >>= fun c => pure (f c)) :=
  hR.of_get (fun c more h => by rw [hf c more h]) fun _ => hR.of_pure _

theorem map {g : α → β} (hx : R x) : R (g <$> x) := hR.bind hx fun _ => hR.of_pure _

theorem of_peek : R peek := hR.returned looks_current

theorem of_isAt (k : Token.Kind) : R (isAt k) := hR.returned (looks_isAt k)

theorem of_isAtName : R isAtName := hR.returned looks_isAtName

theorem of_advance : R advance := by
  refine hR.bind hR.of_next fun _ => ?_
  exact hR.returned fun _ _ _ => rfl

theorem of_failing (p : SyntaxProblem) : R (fail p) := hR.of_fail fun _ _ _ => rfl

theorem of_failExpecting (kinds : List Token.Kind) : R (failExpecting kinds) :=
  hR.of_fail fun c more h => by rw [current_extend h]

theorem of_accept (k : Token.Kind) : R (accept k) :=
  hR.bind (hR.of_isAt k) fun _ => of_ite (hR.bind hR.of_next fun _ => hR.of_pure _) (hR.of_pure _)

theorem of_expect (k : Token.Kind) : R (expect k) :=
  hR.bind (hR.of_isAt k) fun _ =>
    of_ite hR.of_advance (hR.bind (hR.of_failExpecting _) fun _ => hR.of_peek)

theorem of_expectMark (m : Mark) : R (expectMark m) := hR.of_expect _

theorem of_identifier : R identifier :=
  hR.bind hR.of_isAtName fun _ => of_ite (hR.bind hR.of_advance fun _ => hR.of_pure _)
    (hR.bind (hR.of_failExpecting _) fun _ => hR.of_pure _)

end Sequential

namespace Compositional

variable {R : ∀ {α : Type}, Reader α → Prop} {x : Reader α}

section Constructs

variable (hR : Compositional @R)
include hR

/-- A list that may be empty, up to what closes it. -/
theorem of_enclosed {k : Token.Kind} {g : List α → Reader β} (hx : R x) (hg : ∀ as, R (g as)) :
    R (isAt k >>= fun b => if b = true then pure [] >>= g else separated x >>= g) :=
  hR.bind (hR.of_isAt k) fun _ =>
    of_ite (hR.bind (hR.of_pure _) hg) (hR.bind (hR.of_separated hx) hg)

theorem of_json (levels : Nat) : R (json levels) := by
  induction levels with
  | zero => exact hR.bind (hR.of_failing _) fun _ => hR.of_pure _
  | succ levels ih =>
    have hspanned (make : Span → JsonNode) (first : Token) :
        R (do return make (first.span.to (← get).previous.span)) :=
      hR.returned fun _ _ _ => rfl
    have hliteral (kind : JsonNode.Scalar) (first : Token) : R (do
        let c ← get
        let d ← get
        pure (.scalar kind c.previous.text (first.span.to d.previous.span)) : Reader JsonNode) :=
      hR.of_get (fun _ _ _ => rfl) fun _ => hR.returned fun _ _ _ => rfl
    have hmember : R (do
        let key ← expect .string
        let _ ← expectMark .colon
        let w ← json levels
        pure (key.text, key.span, w)) :=
      hR.bind (hR.of_expect _) fun _ => hR.bind (hR.of_expectMark _) fun _ =>
        hR.bind ih fun _ => hR.of_pure _
    unfold json
    refine hR.bind hR.of_peek fun first => ?_
    refine hR.bind (hR.of_accept _) fun _ => of_ite ?_ ?_
    · refine hR.of_enclosed hmember fun _ => ?_
      exact hR.bind (hR.of_expectMark _) fun _ => hspanned _ first
    refine hR.bind (hR.of_accept _) fun _ => of_ite ?_ ?_
    · refine hR.of_enclosed ih fun _ => ?_
      exact hR.bind (hR.of_expectMark _) fun _ => hspanned _ first
    refine hR.bind (hR.of_accept _) fun _ => of_ite (hliteral _ first) ?_
    refine hR.bind (hR.of_accept _) fun _ => of_ite (hliteral _ first) ?_
    refine hR.bind (hR.of_accept _) fun _ => of_ite (hliteral _ first) ?_
    refine hR.bind (hR.of_accept _) fun _ => of_ite (hspanned _ first) ?_
    refine hR.bind (hR.of_accept _) fun _ => of_ite (hspanned _ first) ?_
    refine hR.bind (hR.of_accept _) fun _ => of_ite (hspanned _ first) ?_
    exact hR.bind (hR.of_failExpecting _) fun _ => hR.of_pure _

theorem of_annotation : R annotation :=
  hR.bind hR.of_advance fun _ => hR.bind hR.of_identifier fun _ =>
    hR.bind (hR.of_expectMark _) fun _ => hR.bind (hR.of_json _) fun _ =>
      hR.bind (hR.of_expectMark _) fun _ => hR.of_pure _

theorem of_annotations : R annotations := by
  refine hR.of_many (looks_isAt _) (fun c hc => isAt_of_failure hc _) ?_ hR.of_annotation
  refine (decides_annotationPart (N := 0)).advances leads_annotationPart fun c hc => ?_
  simpa [Cursor.isAt, Option.isNone_iff_eq_none] using hc

theorem of_plainType (levels : Nat) (as : List Annotation) (start : Span) :
    R (plainType levels as start) := by
  induction levels generalizing as start with
  | zero => exact hR.bind (hR.of_failing _) fun _ => hR.of_pure _
  | succ levels ih =>
    have hpart : R (do
        let first ← peek
        let as ← annotations
        plainType levels as first.span) :=
      hR.bind hR.of_peek fun _ => hR.bind hR.of_annotations fun _ => ih _ _
    have hmarked (isOptional : Bool) (make : TypeMark → TypeNode) : R (do
        let m ← (do
          let c ← get
          pure ⟨as, isOptional, start.to c.previous.span⟩ : Reader TypeMark)
        pure (make m)) :=
      hR.bind (hR.returned fun _ _ _ => rfl) fun _ => hR.of_pure _
    have hcontainer (make : TypeNode → TypeMark → TypeNode) : R (do
        let _ ← expectMark .lessThan
        let u ← (do
          let first ← peek
          let as ← annotations
          plainType levels as first.span)
        let _ ← expectMark .greaterThan
        let m ← (do
          let c ← get
          pure ⟨as, false, start.to c.previous.span⟩ : Reader TypeMark)
        pure (make u m)) :=
      hR.bind (hR.of_expectMark _) fun _ => hR.bind hpart fun _ =>
        hR.bind (hR.of_expectMark _) fun _ => hmarked false _
    unfold plainType
    refine hR.bind (hR.of_accept _) fun _ => of_ite (hcontainer .array) ?_
    refine hR.bind (hR.of_accept _) fun _ => of_ite (hcontainer .map) ?_
    refine hR.bind (hR.of_accept _) fun _ => of_ite ?_ ?_
    · exact hR.bind (hR.of_expectMark _) fun _ => hR.bind (hR.of_separated hpart) fun _ =>
        hR.bind (hR.of_expectMark _) fun _ => hmarked false _
    refine hR.bind (hR.of_accept _) fun _ => of_ite ?_ ?_
    · refine hR.bind (hR.of_expectMark _) fun _ => hR.bind (hR.of_expect _) fun _ => ?_
      refine hR.bind (hR.of_accept _) fun _ => of_ite ?_ ?_
      · exact hR.bind (hR.map (hR.of_expect _)) fun _ => hR.bind (hR.of_expectMark _) fun _ =>
          hR.bind (hR.of_accept _) fun _ => hmarked _ _
      · exact hR.bind (hR.of_pure _) fun _ => hR.bind (hR.of_expectMark _) fun _ =>
          hR.bind (hR.of_accept _) fun _ => hmarked _ _
    refine hR.of_get (fun c more h => ?_) fun c => ?_
    · simp only [looks_primitive? c more h, looks_isAtName c more h, looks_isAt _ c more h]
    split
    · exact hR.bind hR.of_advance fun _ => hR.bind (hR.of_accept _) fun _ => hmarked _ _
    · refine of_ite ?_ (hR.bind (hR.of_failExpecting _) fun _ => hR.of_pure _)
      exact hR.bind hR.of_identifier fun _ => hR.bind (hR.of_accept _) fun _ => hmarked _ _

theorem of_fullType : R fullType :=
  hR.bind hR.of_peek fun _ => hR.bind hR.of_annotations fun _ => hR.of_plainType _ _ _

theorem of_resultType : R resultType :=
  hR.bind (hR.of_isAt _) fun _ => of_ite (hR.bind hR.of_advance fun _ => hR.of_pure _)
    (hR.bind hR.of_peek fun _ => hR.bind (hR.of_plainType _ _ _) fun _ => hR.of_pure _)

theorem of_thrown : R thrown :=
  hR.bind (hR.of_accept _) fun _ =>
    of_ite (hR.map (hR.of_separated hR.of_identifier)) (hR.of_pure _)

/-- The parts inside braces. -/
theorem of_inBraces {P : Token.Kind → Prop} {L : TokenGrammar.Kinds} (hx : R x)
    (hdecides : Decides anywhere x L 0) (hL : TokenGrammar.Leads P L) :
    R (many inBraces x) := by
  refine hR.of_many looks_inBraces (fun c hc => by simp [inBraces, hc]) ?_ hx
  refine hdecides.advances hL fun c hc => ⟨?_, trivial⟩
  simp only [inBraces, Bool.and_eq_true, Option.isNone_iff_eq_none] at hc
  exact hc.1.1

theorem of_enumeration (h : Heading) : R (enumeration h) := by
  refine hR.bind hR.of_advance fun _ => hR.bind hR.of_identifier fun name => ?_
  refine hR.bind (hR.of_expectMark _) fun _ => hR.of_enclosed hR.of_identifier fun symbols => ?_
  refine hR.bind (hR.of_expectMark _) fun _ => hR.bind (hR.of_accept _) fun _ => of_ite ?_ ?_
  · exact hR.bind hR.of_identifier fun _ => hR.bind (hR.of_expectMark _) fun _ => hR.of_pure _
  · exact hR.of_pure _

theorem of_fixed (h : Heading) : R (fixed h) :=
  hR.bind hR.of_advance fun _ => hR.bind hR.of_identifier fun _ =>
    hR.bind (hR.of_expectMark _) fun _ => hR.bind (hR.of_expect _) fun _ =>
      hR.bind (hR.of_expectMark _) fun _ => hR.bind (hR.of_expectMark _) fun _ => hR.of_pure _

theorem of_importDecl : R importDecl := by
  have hrest (kind : ImportKind) (keyword : Token) : R (do
      let location ← expect .string
      let terminator ← expectMark .semicolon
      pure ⟨kind, location.text, keyword.span.to terminator.span⟩ : Reader ImportDecl) :=
    hR.bind (hR.of_expect _) fun _ => hR.bind (hR.of_expectMark _) fun _ => hR.of_pure _
  refine hR.bind hR.of_advance fun keyword => ?_
  refine hR.bind (hR.of_accept _) fun _ => of_ite (hrest .idl keyword) ?_
  refine hR.bind (hR.of_accept _) fun _ => of_ite (hrest .protocol keyword) ?_
  refine hR.bind (hR.of_accept _) fun _ => of_ite (hrest .schema keyword) ?_
  exact hR.bind (hR.of_failExpecting _) fun _ => hR.of_pure _

end Constructs

section Documented

variable (hR : Compositional @R) (hdoc : ∀ t, R (takeDoc t))
include hR hdoc

theorem of_declarator : R declarator := by
  refine hR.bind hR.of_peek fun first => hR.bind (hdoc first) fun doc => ?_
  refine hR.bind hR.of_annotations fun as => hR.bind hR.of_identifier fun name => ?_
  refine hR.bind (hR.of_accept _) fun _ => of_ite ?_ ?_
  · exact hR.bind (hR.map (hR.of_json _)) fun _ => hR.returned fun _ _ _ => rfl
  · exact hR.bind (hR.of_pure _) fun _ => hR.returned fun _ _ _ => rfl

theorem of_field : R field :=
  hR.bind hR.of_peek fun first => hR.bind (hdoc first) fun _ => hR.bind hR.of_fullType fun _ =>
    hR.bind (hR.of_separated (hR.of_declarator hdoc)) fun _ =>
      hR.bind (hR.of_expectMark _) fun _ => hR.of_pure _

theorem of_parameter : R parameter :=
  hR.bind hR.of_peek fun first => hR.bind (hdoc first) fun _ => hR.bind hR.of_fullType fun _ =>
    hR.bind (hR.of_declarator hdoc) fun _ => hR.of_pure _

theorem of_record (h : Heading) : R (record h) :=
  hR.bind hR.of_advance fun _ => hR.bind hR.of_identifier fun _ =>
    hR.bind (hR.of_expectMark _) fun _ =>
      hR.bind (hR.of_inBraces (hR.of_field hdoc) decides_field leads_field) fun _ =>
        hR.bind (hR.of_expectMark _) fun _ => hR.of_pure _

theorem of_message (h : Heading) : R (message h) := by
  refine hR.bind hR.of_resultType fun _ => hR.bind hR.of_identifier fun _ => ?_
  refine hR.bind (hR.of_expectMark _) fun _ => hR.of_enclosed (hR.of_parameter hdoc) fun _ => ?_
  refine hR.bind (hR.of_expectMark _) fun _ => hR.bind (hR.of_accept _) fun _ => of_ite ?_ ?_
  · exact hR.bind (hR.of_pure _) fun _ => hR.bind (hR.of_expectMark _) fun _ => hR.of_pure _
  · exact hR.bind hR.of_thrown fun _ => hR.bind (hR.of_expectMark _) fun _ => hR.of_pure _

theorem of_declaration (withMessages : Bool) : R (declaration withMessages) := by
  refine hR.bind hR.of_peek fun first => hR.bind (hR.of_isAt _) fun _ => of_ite ?_ ?_
  · exact hR.bind hR.of_importDecl fun _ => hR.of_pure _
  refine hR.bind (hdoc first) fun _ => hR.bind hR.of_annotations fun _ => ?_
  refine hR.of_get (fun c more h => ?_) fun c => of_ite (hR.of_pure _) ?_
  · simp only [current_extend h]
    rfl
  split
  · exact hR.bind (hR.of_record hdoc _) fun _ => hR.of_pure _
  · exact hR.bind (hR.of_record hdoc _) fun _ => hR.of_pure _
  · exact hR.bind (hR.of_enumeration _) fun _ => hR.of_pure _
  · exact hR.bind (hR.of_fixed _) fun _ => hR.of_pure _
  · refine of_ite ?_ ?_
    · exact hR.bind (hR.of_message hdoc _) fun _ => hR.of_pure _
    · exact hR.bind (hR.of_failExpecting _) fun _ => hR.of_pure _

theorem of_protocol (h : Heading) : R (protocol h) := by
  have hbody := hR.of_inBraces (hR.of_declaration hdoc true)
    (decides_declaration true (leads_zero _)) (leads_declaration true)
  exact hR.bind (hR.of_expect _) fun _ => hR.bind hR.of_identifier fun _ =>
    hR.bind (hR.of_expectMark _) fun _ => hR.bind hbody fun _ =>
      hR.bind (hR.of_expectMark _) fun _ => hR.of_pure _

theorem of_schemas : R schemas := by
  have hdeclarations :
      R (many (fun c => c.failure.isNone && !c.atEnd) (declaration false)) := by
    refine hR.of_many (fun c more h => ?_) (fun c hc => by simp [hc]) ?_
      (hR.of_declaration hdoc false)
    · simp only [looks_atEnd c more h]
      rfl
    · have hdecides : Decides anywhere (declaration false) _ 0 :=
        decides_declaration false (leads_zero _)
      refine hdecides.advances (leads_declaration false) fun c hc => ⟨?_, trivial⟩
      simp only [Bool.and_eq_true, Option.isNone_iff_eq_none] at hc
      exact hc.1
  have hend (space : Option Identifier) (main : Option TypeNode) : R (do
      let declarations ← many (fun c => c.failure.isNone && !c.atEnd) (declaration false)
      return SourceUnit.Body.schemas space main (declarations.filterMap id)) :=
    hR.bind hdeclarations fun _ => hR.of_pure _
  have hmain (space : Option Identifier) : R (do
      let main ←
        if ← accept (.keyword .schema) then
          let type ← fullType
          let _ ← expectMark .semicolon
          pure (some type)
        else pure none
      let declarations ← many (fun c => c.failure.isNone && !c.atEnd) (declaration false)
      return SourceUnit.Body.schemas space main (declarations.filterMap id)) := by
    refine hR.bind (hR.of_accept _) fun _ => of_ite ?_ ?_
    · exact hR.bind hR.of_fullType fun _ => hR.bind (hR.of_expectMark _) fun _ =>
        hR.bind (hR.of_pure _) fun _ => hend _ _
    · exact hR.bind (hR.of_pure _) fun _ => hend _ _
  refine hR.bind (hR.of_accept _) fun _ => of_ite ?_ ?_
  · exact hR.bind hR.of_identifier fun _ => hR.bind (hR.of_expectMark _) fun _ =>
      hR.bind (hR.of_pure _) fun _ => hmain _
  · exact hR.bind (hR.of_pure _) fun _ => hmain _

end Documented

end Compositional

end Reader

end AvroIdl
