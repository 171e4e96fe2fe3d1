import AvroIdl.Proofs.AcceptedType

/-!
# Printed declarations and sources are read back

What a reader makes of a printed construct says the same as the construct: both are equal once
places and documentation are left out.
-/
namespace AvroIdl

open Token (ofMark ofKeyword ofLiteral)

namespace Reader

section Declarations

theorem begins_declarator (d : Declarator) :
    Begins (fun k => k = .mark .at ∨ k = .identifier) d.tokens :=
  begins_annotated _ (.inl rfl) ⟨_, _, rfl, .inr rfl⟩

theorem takes_declarator (d : Declarator) (hd : d.WellFormed) :
    Takes declarator (fun e => e.bare = d.bare) d.tokens (· ≠ .mark .equals) := by
  unfold declarator
  refine takes_peek fun first => takes_takeDoc first fun doc => ?_
  refine (takes_annotations d.annotations hd.annotations).bind ?_ fun as has => ?_
  · intro k hk
    simp [show k = _ from hk]
  refine takes_identifier fun i hi => ?_
  cases hv : d.default with
  | none =>
    refine takes_accept_else (fun k hk => hk) ?_
    rw [pure_bind]
    refine takes_get fun c _ _ => Takes.pure ?_
    simp [Declarator.bare, has, hi, hv]
  | some v =>
    rw [Option.toList_some, List.flatMap_singleton]
    refine takes_accept_then rfl (by simp) ?_
    rw [bind_map_left]
    refine (takes_json v (hd.default v hv)).before.finish fun w hw => ?_
    refine takes_get fun c _ _ => Takes.pure ?_
    simp [Declarator.bare, has, hi, hv, hw]

theorem takes_field (f : FieldDecl) (hf : f.WellFormed) :
    Takes field (fun g => g.bare = f.bare) f.tokens anything := by
  unfold field
  rw [FieldDecl.tokens, List.append_assoc]
  refine takes_peek fun first => takes_takeDoc first fun doc => ?_
  refine (takes_fullType f.type hf.type).bind ?_ fun t ht => ?_
  · intro k hk
    have hfirst := begins_commas hf.filled fun d _ => begins_declarator d
    obtain rfl | rfl := (hfirst.append _).starts hk <;> simp
  refine takes_separated_bind (fun k hk => hk) hf.filled
    (fun d hd => takes_declarator d (hf.declarators d hd)) (by simp) (by simp) fun ds hds => ?_
  refine takes_expectMark _ fun terminator => Takes.pure ?_
  simp [FieldDecl.bare, ht, map_eq_of_forall₂ hds]

theorem inBraces_iff (c : Cursor) : inBraces c = true ↔
    c.failure = none ∧ c.current.kind ≠ .mark .rightBrace ∧ c.current.kind ≠ .endOfFile := by
  cases h : c.failure <;> simp [inBraces, Cursor.isAt, Cursor.atEnd, h]

/-- Constructs between braces. -/
theorem takes_braced {α β ι : Type} {part : Reader α} {R : ι → α → Prop} {print : ι → List Token}
    {items : List ι} {mid next : Token.Kind → Prop} {g : List α → Reader β} {Q : β → Prop}
    {printed : List Token} (hpart : ∀ i ∈ items, Takes part (R i) (print i) mid)
    (hbegins : ∀ i ∈ items,
      Begins (fun k => mid k ∧ k ≠ .mark .rightBrace ∧ k ≠ .endOfFile) (print i))
    (hclose : mid (.mark .rightBrace))
    (hg : ∀ as, List.Forall₂ R items as → Takes (g as) Q (ofMark .rightBrace :: printed) next) :
    Takes (many inBraces part >>= g) Q
      (items.flatMap print ++ ofMark .rightBrace :: printed) next := by
  have hmany : Takes (many inBraces part) (List.Forall₂ R items) (items.flatMap print)
      (· = .mark .rightBrace) := by
    refine takes_many hpart hbegins ?_ ?_ ?_
    · intro c hc hk
      exact (inBraces_iff c).mpr ⟨hc, hk.2⟩
    · intro c hk
      by_contra h
      exact ((inBraces_iff c).mp (by simpa using h)).2.1 hk
    · rintro k (hk | rfl)
      · exact hk.1
      · exact hclose
  exact hmany.bind (fun k hk => hk) hg

section Headed

variable {h : Heading}

theorem takes_record (d : RecordDecl) (hd : d.WellFormed)
    (has : h.annotations.map Annotation.bare = d.annotations.map Annotation.bare) :
    Takes (record h) (fun e => e.bare = d.bare)
      (ofKeyword (if d.isError then .error else .record) :: d.name.token :: ofMark .leftBrace ::
        (d.fields.flatMap FieldDecl.tokens ++ [ofMark .rightBrace])) anything := by
  unfold record
  refine takes_advance (by simp) fun keyword hkeyword => takes_identifier fun i hi => ?_
  refine takes_expectMark _ fun _ => ?_
  have hbegins : ∀ f ∈ d.fields,
      Begins (fun k => anything k ∧ k ≠ .mark .rightBrace ∧ k ≠ .endOfFile) f.tokens := by
    intro f hf
    rw [FieldDecl.tokens, List.append_assoc]
    refine (begins_type (hd.fields f hf).type ?_ ?_).append _
    · exact ⟨trivial, by simp⟩
    · exact fun k hk => ⟨trivial, by revert k; decide⟩
  refine takes_braced (fun f hf => takes_field f (hd.fields f hf)) hbegins trivial fun fs hfs => ?_
  refine takes_expectMark _ fun closing => Takes.pure ?_
  have hkind : (keyword.kind == .keyword .error) = d.isError := by
    rw [hkeyword.kind]
    cases d.isError <;> rfl
  simp [RecordDecl.bare, has, hi, hkind, map_eq_of_forall₂ hfs]

theorem takes_enumeration (d : EnumDecl)
    (has : h.annotations.map Annotation.bare = d.annotations.map Annotation.bare) :
    Takes (enumeration h) (fun e => e.bare = d.bare)
      (ofKeyword .enum :: d.name.token :: ofMark .leftBrace ::
        (commas (d.symbols.map fun s => [s.token]) ++ ofMark .rightBrace ::
          d.default.toList.flatMap fun s => [ofMark .equals, s.token, ofMark .semicolon]))
      (· ≠ .mark .equals) := by
  unfold enumeration
  refine takes_advance (by simp) fun _ _ => takes_identifier fun i hi => ?_
  refine takes_expectMark _ fun _ => ?_
  refine takes_enclosed (fun k hk => hk) (fun s _ => ⟨_, _, rfl, by simp⟩)
    (fun s _ => takes_identifier_only s) trivial ⟨trivial, by simp⟩ fun ss hss => ?_
  refine takes_expectMark _ fun closing => ?_
  cases hs : d.default with
  | none =>
    refine takes_accept_else (fun k hk => hk) (Takes.pure ?_)
    simp [EnumDecl.bare, has, hi, hs, map_eq_of_forall₂ hss]
  | some s =>
    refine takes_accept_then rfl (by simp) (takes_identifier fun j hj => ?_)
    refine takes_expectMark _ fun terminator => Takes.pure ?_
    simp [EnumDecl.bare, has, hi, hs, hj, map_eq_of_forall₂ hss]

theorem takes_fixed (d : FixedDecl)
    (has : h.annotations.map Annotation.bare = d.annotations.map Annotation.bare) :
    Takes (fixed h) (fun e => e.bare = d.bare)
      [ofKeyword .fixed, d.name.token, ofMark .leftParen, ofLiteral .integer d.size,
        ofMark .rightParen, ofMark .semicolon] anything := by
  unfold fixed
  refine takes_advance (by simp) fun _ _ => takes_identifier fun i hi => ?_
  refine takes_expectMark _ fun _ => takes_expect rfl (by simp) fun size hsize => ?_
  refine takes_expectMark _ fun _ => takes_expectMark _ fun terminator => Takes.pure ?_
  simp [FixedDecl.bare, has, hi, (hsize.text rfl).1, ofLiteral]

theorem takes_parameter (p : Parameter) (hp : p.WellFormed) :
    Takes parameter (fun q => q.bare = p.bare) p.tokens (· ≠ .mark .equals) := by
  unfold parameter
  rw [Parameter.tokens]
  refine takes_peek fun first => takes_takeDoc first fun doc => ?_
  refine (takes_fullType p.type hp.type).bind ?_ fun t ht => ?_
  · intro k hk
    obtain rfl | rfl := (begins_declarator p.declarator).starts hk <;> simp
  refine (takes_declarator p.declarator hp.declarator).finish fun d hd => Takes.pure ?_
  have hdoc : ({ d with doc := d.doc.or doc } : Declarator).bare = d.bare := rfl
  simp only [Parameter.bare, ht, hdoc, hd]

theorem takes_resultType (r : ResultType) (hr : r.WellFormed) :
    Takes resultType (fun s => s.bare = r.bare) r.tokens (· ≠ .mark .question) := by
  unfold resultType
  cases r with
  | void span =>
    refine takes_isAt_then (fun k hk => hk) ?_
    exact takes_advance (by simp) fun _ _ => Takes.pure rfl
  | value t =>
    obtain ⟨hnone, ht⟩ := hr
    have htokens : (ResultType.value t).tokens = t.plainTokens := by
      rw [ResultType.tokens, TypeNode.tokens, hnone, List.flatMap_nil, List.nil_append]
    rw [htokens]
    refine takes_isAt_else ?_ (takes_peek fun first => ?_)
    · intro k hk hvoid
      have hstart := (begins_plainType ht).starts hk
      rw [hvoid] at hstart
      exact absurd hstart (by decide)
    refine (takes_plainType t ht (by rw [hnone])).finish fun u hu => Takes.pure ?_
    simp [ResultType.bare, hu]

theorem takes_thrown (errors : Option (List Identifier)) (he : errors ≠ some []) :
    Takes thrown
      (fun es => es.map (·.map Identifier.bare) = errors.map (·.map Identifier.bare))
      (errors.toList.flatMap fun es => ofKeyword .throws :: commas (es.map fun e => [e.token]))
      (· = .mark .semicolon) := by
  unfold thrown
  cases errors with
  | none => exact takes_accept_else (fun k hk => by simp [show k = _ from hk]) (Takes.pure rfl)
  | some es =>
    rw [Option.toList_some, List.flatMap_singleton]
    refine takes_accept_then rfl (by simp) ?_
    refine (takes_separated (by simpa using he) (fun e _ => takes_identifier_only e) trivial
      fun k hk => ⟨trivial, by simp [hk]⟩).map fun fs hfs => ?_
    simp [map_eq_of_forall₂ hfs]

theorem begins_parameter {p : Parameter} (hp : p.WellFormed) :
    Begins (· ≠ .mark .rightParen) p.tokens :=
  (begins_type hp.type (by simp) (by decide)).append _

theorem takes_message (d : MessageDecl) (hd : d.WellFormed)
    (has : h.annotations.map Annotation.bare = d.annotations.map Annotation.bare) :
    Takes (message h) (fun e => e.bare = d.bare)
      (d.result.tokens ++ d.name.token :: ofMark .leftParen ::
        (commas (d.parameters.map Parameter.tokens) ++ ofMark .rightParen ::
          ((if d.isOneWay then [ofKeyword .oneway] else []) ++
            ((d.errors.toList.flatMap fun es =>
              ofKeyword .throws :: commas (es.map fun e => [e.token])) ++ [ofMark .semicolon]))))
      anything := by
  unfold message
  refine (takes_resultType d.result hd.result).bind ?_ fun r hr => ?_
  · intro k hk
    simp [show k = _ from hk]
  refine takes_identifier fun i hi => takes_expectMark _ fun _ => ?_
  refine takes_enclosed (fun k hk => hk) (fun p hp => begins_parameter (hd.parameters p hp))
    (fun p hp => takes_parameter p (hd.parameters p hp)) (by simp) (by simp) fun ps hps => ?_
  refine takes_expectMark _ fun _ => ?_
  cases hway : d.isOneWay with
  | true =>
    rw [hd.oneWay hway]
    refine takes_accept rfl (by simp) ?_
    simp only [if_true, pure_bind]
    refine takes_expectMark _ fun terminator => Takes.pure ?_
    simp [MessageDecl.bare, has, hr, hi, hway, hd.oneWay hway, map_eq_of_forall₂ hps]
  | false =>
    refine takes_decline ?_ ?_
    · intro k hk
      cases he : d.errors <;> rw [he] at hk <;> simp [show k = _ from hk]
    simp only [Bool.false_eq_true, if_false, List.nil_append]
    refine (takes_thrown d.errors hd.errors).bind (fun k hk => hk) fun es hes => ?_
    refine takes_expectMark _ fun terminator => Takes.pure ?_
    simp only [MessageDecl.bare, has, hr, hi, hway, hes, map_eq_of_forall₂ hps]

end Headed

theorem takes_importDecl (d : ImportDecl) :
    Takes importDecl (fun e => e.bare = d.bare) d.tokens anything := by
  unfold importDecl
  rw [ImportDecl.tokens]
  refine takes_advance (by simp) fun keyword _ => ?_
  have hrest (kind : ImportKind) (hkind : kind = d.kind) : Takes (do
        let location ← expect .string
        let terminator ← expectMark .semicolon
        pure ⟨kind, location.text, keyword.span.to terminator.span⟩ : Reader ImportDecl)
      (fun e => e.bare = d.bare) [ofLiteral .string d.location, ofMark .semicolon] anything := by
    refine takes_expect rfl (by simp) fun location hlocation => ?_
    refine takes_expectMark _ fun terminator => Takes.pure ?_
    simp [ImportDecl.bare, hkind, (hlocation.text rfl).1, ofLiteral]
  cases hk : d.kind with
  | idl => exact takes_accept_then rfl (by simp) (hrest _ hk.symm)
  | protocol =>
    exact takes_accept_skip (by decide) (takes_accept_then rfl (by simp) (hrest _ hk.symm))
  | schema =>
    refine takes_accept_skip (by decide) (takes_accept_skip (by decide) ?_)
    exact takes_accept_then rfl (by simp) (hrest _ hk.symm)

/-- The kinds of tokens that a declaration may start with. -/
def declarationStarts : List Token.Kind :=
  [.mark .at, .keyword .importFrom, .keyword .record, .keyword .error, .keyword .enum,
    .keyword .fixed, .keyword .void] ++ typeStarts

theorem begins_resultType {r : ResultType} (hr : r.WellFormed) :
    Begins (fun k => k = .keyword .void ∨ k ∈ typeStarts) r.tokens := by
  cases r with
  | void span => exact ⟨_, _, rfl, .inl rfl⟩
  | value t =>
    obtain ⟨hnone, ht⟩ := hr
    rw [ResultType.tokens, TypeNode.tokens, hnone]
    exact (begins_plainType ht).mono fun k hk => .inr hk

theorem begins_declaration {d : Declaration} (hd : d.WellFormed) :
    Begins (· ∈ declarationStarts) d.tokens := by
  cases d with
  | file d => exact ⟨_, _, rfl, by decide⟩
  | record d =>
    rw [Declaration.tokens, RecordDecl.tokens, List.append_assoc]
    refine begins_annotated _ (by decide) ⟨_, _, rfl, ?_⟩
    cases d.isError <;> decide
  | enum d =>
    rw [Declaration.tokens, EnumDecl.tokens, List.append_assoc]
    exact begins_annotated _ (by decide) ⟨_, _, rfl, by decide⟩
  | fixed d => exact begins_annotated _ (by decide) ⟨_, _, rfl, by decide⟩
  | message d =>
    simp only [Declaration.tokens, MessageDecl.tokens, List.append_assoc]
    refine begins_annotated _ (by decide) (Begins.append ?_ _)
    refine (begins_resultType hd.result).mono ?_
    rintro k (rfl | hk)
    · decide
    · exact List.mem_append_right _ hk

/-- The documentation and the annotations before a declaration that is no import are read. -/
theorem takes_headed {β : Type} {as : List Annotation} {body : List Token} {Q : β → Prop}
    {next : Token.Kind → Prop} {x : Token → Reader β} {y : Reader β}
    {g : List Annotation → Option Text → Token → Cursor → Reader β}
    (has : ∀ a ∈ as, a.WellFormed)
    (hbody : Begins (fun k => k ≠ .mark .at ∧ k ≠ .keyword .importFrom) body)
    (hg : ∀ bs doc first c, bs.map Annotation.bare = as.map Annotation.bare →
      Starts body next c.current.kind → Takes (g bs doc first c) Q body next) :
    Takes (do
        let first ← peek
        let b ← isAt (.keyword .importFrom)
        if b = true then x first
        else do
          let doc ← takeDoc first
          let bs ← annotations
          let c ← get
          if c.failure.isSome = true then y else g bs doc first c)
      Q (as.flatMap Annotation.tokens ++ body) next := by
  have hfirst : Begins (· ≠ .keyword .importFrom) (as.flatMap Annotation.tokens ++ body) :=
    begins_annotated as (by simp) (hbody.mono fun k hk => hk.2)
  refine takes_peek fun first => takes_isAt_else (fun k hk => hfirst.starts hk) ?_
  refine takes_takeDoc first fun doc => ?_
  refine (takes_annotations as has).bind (fun k hk => (hbody.starts hk).1) fun bs hbs => ?_
  refine takes_get fun c hc hkind => ?_
  rw [if_neg (by simp [hc])]
  exact hg bs doc first c hbs hkind

theorem takes_declaration (d : Declaration) (hd : d.WellFormed) {allowMessages : Bool}
    (hallow : d.isMessage = true → allowMessages = true) :
    Takes (declaration allowMessages) (fun o => o.map Declaration.bare = some d.bare) d.tokens
      (· ≠ .mark .equals) := by
  unfold declaration
  cases d with
  | file d =>
    refine takes_peek fun first => takes_isAt_then (fun k hk => hk) ?_
    refine (takes_importDecl d).before.finish fun e he => ?_
    exact Takes.pure (by simp [Declaration.bare, he])
  | record d =>
    simp only [Declaration.tokens, RecordDecl.tokens, List.append_assoc, List.cons_append]
    refine takes_headed hd.annotations ⟨_, _, rfl, by cases d.isError <;> simp⟩ ?_
    intro bs doc first c hbs hkind
    have hkind : c.current.kind = .keyword .error ∨ c.current.kind = .keyword .record := by
      rw [show c.current.kind = .keyword (if d.isError then .error else .record) from hkind]
      cases d.isError <;> simp
    have hread := takes_record (h := ⟨bs, doc, first⟩) d hd hbs
    rcases hkind with hkind | hkind
    all_goals
      simp only [hkind]
      refine hread.before.finish fun e he => Takes.pure ?_
      simp [Declaration.bare, he]
  | enum d =>
    simp only [Declaration.tokens, EnumDecl.tokens, List.append_assoc, List.cons_append]
    refine takes_headed hd ⟨_, _, rfl, by simp⟩ ?_
    intro bs doc first c hbs hkind
    simp only [show c.current.kind = .keyword .enum from hkind]
    refine (takes_enumeration d hbs).finish fun e he => Takes.pure ?_
    simp [Declaration.bare, he]
  | fixed d =>
    refine takes_headed hd ⟨_, _, rfl, by simp⟩ ?_
    intro bs doc first c hbs hkind
    simp only [show c.current.kind = .keyword .fixed from hkind]
    refine (takes_fixed d hbs).before.finish fun e he => ?_
    exact Takes.pure (by simp [Declaration.bare, he])
  | message d =>
    simp only [Declaration.tokens, MessageDecl.tokens, List.append_assoc, List.cons_append]
    have hresult := (begins_resultType hd.result).append
    refine takes_headed hd.annotations ((hresult _).mono ?_) ?_
    · rintro k (rfl | hk)
      · simp
      · revert k
        decide
    intro bs doc first c hbs hkind
    have hkind := (hresult _).starts hkind
    rw [hallow rfl]
    split
    case h_5 =>
      refine (takes_message d hd hbs).before.finish ?_
      intro e he
      exact Takes.pure (by simp [Declaration.bare, he])
    -- a result begins with none of the words for the other declarations
    all_goals
      rename_i hother
      exact absurd hkind (by rw [hother]; decide)

/-- All declarations that were read are there. -/
theorem map_filterMap_of_forall₂ {ds : List Declaration} {os : List (Option Declaration)}
    (h : List.Forall₂ (fun d o => o.map Declaration.bare = some d.bare) ds os) :
    (os.filterMap id).map Declaration.bare = ds.map Declaration.bare := by
  induction h with
  | nil => rfl
  | cons hd _ ih =>
    obtain ⟨e, rfl, he⟩ := Option.map_eq_some_iff.mp hd
    rw [List.filterMap_cons_some (f := id) rfl, List.map_cons, List.map_cons, he, ih]

theorem takes_protocol {h : Heading} (d : ProtocolDecl) (hd : d.WellFormed)
    (has : h.annotations.map Annotation.bare = d.annotations.map Annotation.bare) :
    Takes (protocol h) (fun b => b.bare = (SourceUnit.Body.protocol d).bare)
      (ofKeyword .protocol :: d.name.token :: ofMark .leftBrace ::
        (d.body.flatMap Declaration.tokens ++ [ofMark .rightBrace])) anything := by
  unfold protocol
  refine takes_expect rfl (by simp) fun _ _ => takes_identifier fun i hi => ?_
  refine takes_expectMark _ fun _ => ?_
  refine takes_braced (fun x hx => takes_declaration x (hd.body x hx) fun _ => rfl) ?_ (by simp)
    fun os hos => ?_
  · intro x hx
    refine (begins_declaration (hd.body x hx)).mono ?_
    decide
  refine takes_expectMark _ fun closing => Takes.pure ?_
  simp only [SourceUnit.Body.bare, ProtocolDecl.bare, has, hi, map_filterMap_of_forall₂ hos]

section Schemas

variable {declarations : List Declaration}

theorem takes_declarations (h : ∀ x ∈ declarations, x.WellFormed ∧ x.isMessage = false) :
    Takes (many (fun c => c.failure.isNone && !c.atEnd) (declaration false))
      (List.Forall₂ (fun d o => o.map Declaration.bare = some d.bare) declarations)
      (declarations.flatMap Declaration.tokens) (· = .endOfFile) := by
  refine takes_many (fun x hx => takes_declaration x (h x hx).1 (by simp [(h x hx).2]))
    (fun x hx => begins_declaration (h x hx).1) ?_ ?_ ?_
  · intro c hc hk
    have hend : c.current.kind ≠ .endOfFile := by
      intro hend
      exact absurd hk (by rw [hend]; decide)
    simp [hc, Cursor.atEnd, hend]
  · intro c hk
    simp [Cursor.atEnd, hk]
  · rintro k (hk | rfl)
    · revert k
      decide
    · simp

section Stages

variable {β : Type} {Q : β → Prop} {printed : List Token} {next : Token.Kind → Prop}

theorem takes_space {g : Option Identifier → Reader β} (space : Option Identifier)
    (hnext : ∀ k, Starts printed next k → k ≠ .keyword .nameSpace)
    (hg : ∀ s, s.map Identifier.bare = space.map Identifier.bare → Takes (g s) Q printed next) :
    Takes (do
        let b ← accept (.keyword .nameSpace)
        if b = true then
          let i ← identifier
          let _ ← expectMark .semicolon
          let s ← pure (some i)
          g s
        else
          let s ← pure none
          g s)
      Q ((space.toList.flatMap fun s => [ofKeyword .nameSpace, s.token, ofMark .semicolon]) ++
        printed) next := by
  cases space with
  | none =>
    refine takes_accept_else hnext ?_
    rw [pure_bind]
    exact hg none rfl
  | some i =>
    refine takes_accept_then rfl (by simp) (takes_identifier fun j hj => ?_)
    refine takes_expectMark _ fun _ => ?_
    rw [pure_bind]
    exact hg (some j) (by simp [hj])

theorem takes_mainSchema {g : Option TypeNode → Reader β} (main : Option TypeNode)
    (hmain : ∀ t ∈ main, t.WellFormed)
    (hnext : ∀ k, Starts printed next k → k ≠ .keyword .schema)
    (hg : ∀ m, m.map TypeNode.bare = main.map TypeNode.bare → Takes (g m) Q printed next) :
    Takes (do
        let b ← accept (.keyword .schema)
        if b = true then
          let t ← fullType
          let _ ← expectMark .semicolon
          let m ← pure (some t)
          g m
        else
          let m ← pure none
          g m)
      Q ((main.toList.flatMap fun t => ofKeyword .schema :: t.tokens ++ [ofMark .semicolon]) ++
        printed) next := by
  cases main with
  | none =>
    refine takes_accept_else hnext ?_
    rw [pure_bind]
    exact hg none rfl
  | some t =>
    rw [Option.toList_some, List.flatMap_singleton, List.append_assoc]
    refine takes_accept_then rfl (by simp) ?_
    refine (takes_fullType t (hmain t rfl)).bind ?_ fun u hu => takes_expectMark _ fun _ => ?_
    · intro k hk
      simp [show k = _ from hk]
    rw [pure_bind]
    exact hg (some u) (by simp [hu])

end Stages

theorem takes_schemas (space : Option Identifier) (main : Option TypeNode)
    (hmain : ∀ t ∈ main, t.WellFormed)
    (h : ∀ x ∈ declarations, x.WellFormed ∧ x.isMessage = false) :
    Takes schemas (fun b => b.bare = (SourceUnit.Body.schemas space main declarations).bare)
      (SourceUnit.Body.schemas space main declarations).tokens (· = .endOfFile) := by
  have hstarts : ∀ k, Starts (declarations.flatMap Declaration.tokens) (· = .endOfFile) k →
      k ≠ .keyword .nameSpace ∧ k ≠ .keyword .schema := by
    intro k hk
    obtain hk | rfl := starts_flatMap (fun x hx => begins_declaration (h x hx).1) hk
    · clear * - hk
      revert k
      decide
    · simp
  rw [SourceUnit.Body.tokens, List.append_assoc]
  unfold schemas
  refine takes_space space ?_ fun s hs => ?_
  · intro k hk
    cases main with
    | none => exact (hstarts k hk).1
    | some t => simp [show k = _ from hk]
  refine takes_mainSchema main hmain (fun k hk => (hstarts k hk).2) fun m hm => ?_
  refine (takes_declarations h).finish fun os hos => Takes.pure ?_
  simp only [SourceUnit.Body.bare, hs, hm, map_filterMap_of_forall₂ hos]

/-- The tokens begin with annotations that belong to no protocol. -/
def LeadsToTypes (ts : List Token) : Prop :=
  ∃ (as : List Annotation) (back : List Token), ts = as.flatMap Annotation.tokens ++ back ∧
    (∀ a ∈ as, a.WellFormed) ∧
      ∀ k, Starts back (· = .endOfFile) k → k ≠ .mark .at ∧ k ≠ .keyword .protocol

theorem leadsToTypes_schemas (space : Option Identifier) (main : Option TypeNode)
    (h : ∀ x ∈ declarations, x.WellFormed ∧ x.isMessage = false) :
    LeadsToTypes (SourceUnit.Body.schemas space main declarations).tokens := by
  have hplain {back : List Token}
      (hback : Begins (fun k => k ≠ .mark .at ∧ k ≠ .keyword .protocol) back) :
      LeadsToTypes back := ⟨[], back, rfl, by simp, fun k hk => hback.starts hk⟩
  cases space with
  | some s => exact hplain ⟨_, _, rfl, by simp⟩
  | none =>
    cases main with
    | some t => exact hplain ⟨_, _, rfl, by simp⟩
    | none =>
      cases declarations with
      | nil => exact ⟨[], [], rfl, by simp, fun k hk => by simp [show k = _ from hk]⟩
      | cons d ds =>
        obtain ⟨hd, hmessage⟩ := h d (by simp)
        have htokens : (SourceUnit.Body.schemas none none (d :: ds)).tokens =
            d.tokens ++ ds.flatMap Declaration.tokens := rfl
        rw [htokens]
        cases d with
        | file d => exact hplain ⟨_, _, rfl, by simp⟩
        | record d =>
          simp only [Declaration.tokens, RecordDecl.tokens, List.append_assoc]
          refine ⟨d.annotations, _, rfl, hd.annotations, fun k hk => ?_⟩
          cases he : d.isError <;> simp [show k = _ from hk, he]
        | enum d =>
          simp only [Declaration.tokens, EnumDecl.tokens, List.append_assoc]
          exact ⟨d.annotations, _, rfl, hd, fun k hk => by simp [show k = _ from hk]⟩
        | fixed d =>
          simp only [Declaration.tokens, FixedDecl.tokens, List.append_assoc]
          exact ⟨d.annotations, _, rfl, hd, fun k hk => by simp [show k = _ from hk]⟩
        | message d => simp [Declaration.isMessage] at hmessage

end Schemas

end Declarations

section Units

variable {α β : Type}

/-- How reading ahead goes on: it failed, or a token of the kind follows, or everything is read
again. -/
theorem again_run {x : Reader α} {y z : Reader β} {w : Token → α → Reader β} {k : Token.Kind}
    (c : Cursor) :
    (do
      let start ← get
      let first ← peek
      let a ← x
      let c ← get
      if c.failure.isSome = true then y
      else do
        let b ← isAt k
        if b = true then w first a
        else do
          set start
          z : Reader β).run c =
      if (x.run c).2.failure.isSome = true then y.run (x.run c).2
      else if (x.run c).2.isAt k = true then (w c.current (x.run c).1).run (x.run c).2
      else z.run c := by
  change (if (x.run c).2.failure.isSome = true then y
    else do
      let b ← isAt k
      if b = true then w c.current (x.run c).1
      else do
        set c
        z : Reader β).run (x.run c).2 = _
  split
  · rfl
  change (if (x.run c).2.isAt k = true then w c.current (x.run c).1
    else do
      set c
      z : Reader β).run (x.run c).2 = _
  split <;> rfl

/-- What was read ahead is read again if it is not followed by a token of the kind. -/
theorem takes_again {x : Reader α} {y z : Reader β} {w : Token → α → Reader β} {P : α → Prop}
    {Q : β → Prop} {front back : List Token} {ahead next : Token.Kind → Prop} {k : Token.Kind}
    (hx : Takes x P front ahead) (hahead : ∀ kind, Starts back next kind → ahead kind)
    (hk : ∀ kind, Starts back next kind → kind ≠ k) (hz : Takes z Q (front ++ back) next) :
    Takes (do
        let start ← get
        let first ← peek
        let a ← x
        let c ← get
        if c.failure.isSome = true then y
        else do
          let b ← isAt k
          if b = true then w first a
          else do
            set start
            z)
      Q (front ++ back) next := by
  intro c ts rest hc hr hm hn
  obtain ⟨ts₁, ts₂, rfl, hfront, hback⟩ := exists_append_of_forall₂ hm
  have hr' : c.rest = ts₁ ++ (ts₂ ++ rest) := by rw [hr, List.append_assoc]
  have hstart : Starts back next ((ts₂ ++ rest).headD {}).kind := by
    cases hback with
    | nil => exact hn
    | cons h _ => exact h.kind
  obtain ⟨-, hfailure, hrest⟩ := hx c ts₁ (ts₂ ++ rest) hc hr' hfront (hahead _ hstart)
  have hkind : (x.run c).2.isAt k = false := by
    simp [Cursor.isAt, hk _ (starts_current hrest hback hn)]
  rw [again_run, if_neg (by simp [hfailure]), if_neg (by simp [hkind])]
  exact hz c _ rest hc hr hm hn

/-- What is left to do after the body of a source. -/
def conclude (b : SourceUnit.Body) : Reader SourceUnit := do
  let c ← get
  if c.failure.isNone && !c.atEnd then failExpecting [.endOfFile]
  return ⟨b, (c.docs.zipIdx.filter fun (_, i) => !c.used.contains i).map fun (d, _) => d.span⟩

theorem sourceUnit_eq : sourceUnit = (do
    let start ← get
    let first ← peek
    let as ← annotations
    let c ← get
    if c.failure.isSome = true then pure {}
    else do
      let b ← isAt (.keyword .protocol)
      if b = true then do
        let doc ← takeDoc first
        let body ← protocol ⟨as, doc, first⟩
        conclude body
      else do
        set start
        let body ← schemas
        conclude body) := rfl

theorem takes_conclude (b : SourceUnit.Body) :
    Takes (conclude b) (fun u => u.body = b) [] (· = .endOfFile) := by
  refine takes_get fun c hc hkind => ?_
  have hat : c.atEnd = true := by simp [Cursor.atEnd, show c.current.kind = _ from hkind]
  rw [if_neg (by simp [hat])]
  exact Takes.pure rfl

theorem takes_sourceUnit (b : SourceUnit.Body) (hb : b.WellFormed) :
    Takes sourceUnit (fun u => u.body.bare = b.bare) b.tokens (· = .endOfFile) := by
  have hend (b' : SourceUnit.Body) (hb' : b'.bare = b.bare) :=
    (takes_conclude b').mono (fun u hu => (by rw [hu, hb'] : u.body.bare = b.bare)) fun _ h => h
  rw [sourceUnit_eq]
  cases b with
  | protocol d =>
    simp only [SourceUnit.Body.tokens, ProtocolDecl.tokens, List.append_assoc, List.cons_append]
    refine takes_get fun start _ _ => takes_peek fun first => ?_
    refine (takes_annotations d.annotations hb.annotations).bind ?_ fun as has => ?_
    · intro k hk
      simp [show k = _ from hk]
    refine takes_get fun c hc _ => ?_
    rw [if_neg (by simp [hc])]
    refine takes_isAt_then (fun k hk => hk) (takes_takeDoc first fun doc => ?_)
    have hread := takes_protocol (h := ⟨as, doc, first⟩) d hb has
    exact hread.before.finish hend
  | schemas space main declarations =>
    obtain ⟨hmain, hdeclarations⟩ := hb
    obtain ⟨as, back, htokens, has, hback⟩ := leadsToTypes_schemas space main hdeclarations
    have hread := (takes_schemas space main hmain hdeclarations).finish hend
    rw [htokens] at hread ⊢
    exact takes_again (takes_annotations as has) (fun k hk => (hback k hk).1)
      (fun k hk => (hback k hk).2) hread

end Units

end Reader

namespace SourceUnit

/-- The printed tokens of a well-formed source, with any places and comments, are read without a
problem, and say what the source says. -/
theorem ofTokens_of_matches {u : SourceUnit} (hu : u.WellFormed) {ts : List Token}
    (docs : List DocComment) (h : List.Forall₂ Token.Matches u.tokens ts) :
    (ofTokens ts docs).2 = none ∧ (ofTokens ts docs).1.bare = u.bare := by
  obtain ⟨front, back, rfl, hfront, hback⟩ := Reader.exists_append_of_forall₂ h
  obtain ⟨last, more, hlast, hmore, rfl⟩ := List.forall₂_cons_left_iff.mp hback
  cases hmore
  cases hts : front ++ [last] with
  | nil => simp at hts
  | cons first rest =>
    obtain ⟨hbody, hfailure, -⟩ := Reader.takes_sourceUnit u.body hu
      { docs := docs, previous := first, rest := first :: rest } front [last] rfl hts.symm hfront
      hlast.kind
    exact ⟨hfailure, by rw [bare, bare, ← hbody]; rfl⟩

end SourceUnit

end AvroIdl
