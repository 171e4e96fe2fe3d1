import AvroIdl.Proofs.SpelledType
import AvroIdl.Proofs.ViablePrefix

/-!
# Every construct is decided

Each reader decides the language of its construct, in front of whatever cannot be taken for more of
it: a question mark after a type, an equals sign after a name, a comma after a part of a list.
-/
namespace AvroIdl

open TokenGrammar (Kinds Leads seq one mark word name opt list oneOf apart seq_cons seq_nil
  leads_one mem_seq_cons nil_mem_opt)
open Computability

namespace Reader

section Json

variable {pre : Cursor → Prop} {N : Kinds}

/-- Too many levels are no syntax error. -/
theorem decides_deep {β : Type} {b : β} {L : Kinds} {p : SyntaxProblem} (hL : ∃ w, w ∈ L)
    (hp : p.kind ≠ .syntaxError) : Decides pre (fail p >>= fun _ => pure b) L N := by
  refine ⟨hL, fun c hc => failure_fail hc p, fun c _ hunfailed _ => .deep p c.current.span hp ?_⟩
  change (c.fail p).failure = _
  rw [Cursor.fail, if_neg (by simp [hunfailed])]

theorem decides_returned {β : Type} (f : Cursor → β) :
    Decides pre (get >>= fun c => pure (f c)) 1 N := decides_get fun _ => decides_pure _

theorem jsonRule_eq (J : Kinds) : TokenGrammar.jsonRule J =
    one (.mark .leftBrace) *
        seq [opt (list (seq [one .string, mark .colon, J])), mark .rightBrace] +
      (one (.mark .leftBracket) * seq [opt (list J), mark .rightBracket] +
      (one .string * 1 + (one .integer * 1 + (one .float * 1 + (one (.keyword .true) * 1 +
      (one (.keyword .false) * 1 + one (.keyword .null) * 1)))))) := by
  simp only [TokenGrammar.jsonRule, seq_cons, add_assoc, mul_one, mark, word]

theorem mem_json_string : [.string] ∈ TokenGrammar.json := by
  rw [TokenGrammar.json_eq, jsonRule_eq]
  exact .inr (.inr (.inl (by rw [mul_one]; rfl)))

theorem leads_json : Leads (· ≠ .mark .rightBracket) TokenGrammar.json := by
  rw [TokenGrammar.json_eq, jsonRule_eq]
  simp

theorem decides_json (levels : Nat) : Decides pre (json levels) TokenGrammar.json N := by
  induction levels generalizing pre N with
  | zero => exact decides_deep ⟨_, mem_json_string⟩ (by decide)
  | succ levels ih =>
    have hmember {N : Kinds} : Decides anywhere (do
          let key ← expect .string
          let _ ← expectMark .colon
          return (key.text, key.span, ← json levels))
        (seq [one .string, mark .colon, TokenGrammar.json]) N := by
      refine (decides_expect (by simp)).andThen fun key => (decides_mark _).andThen fun _ => ?_
      exact ih.andThen fun v => decides_done _
    have hobject : Leads (· ≠ .mark .rightBrace)
        (seq [one .string, mark .colon, TokenGrammar.json]) := (leads_one (by simp)).seq _
    rw [TokenGrammar.json_eq, jsonRule_eq]
    unfold json
    refine decides_peek fun first => ?_
    refine decides_either (by simp) (by simp) ?_ ?_
    · refine decides_enclosed (by simp) hobject hmember fun ms => ?_
      exact (decides_mark _).andThen fun _ => decides_returned _
    refine decides_either (by simp) (by simp) ?_ ?_
    · refine decides_enclosed (by simp) leads_json ih fun vs => ?_
      exact (decides_mark _).andThen fun _ => decides_returned _
    refine decides_either (by simp) (by simp) ?_ ?_
    · exact decides_get fun _ => decides_returned _
    refine decides_either (by simp) (by simp) ?_ ?_
    · exact decides_get fun _ => decides_returned _
    refine decides_either (by simp) (by simp) ?_ ?_
    · exact decides_get fun _ => decides_returned _
    refine decides_either (by simp) (by simp) ?_ ?_
    · exact decides_returned _
    refine decides_either (by simp) (by simp) ?_ ?_
    · exact decides_returned _
    exact decides_accept_or_fail (by simp) (decides_returned _)

theorem decides_jsonValue : Decides pre jsonValue TokenGrammar.json N := decides_json _

end Json

section Annotations

variable {pre : Cursor → Prop} {N : Kinds}

theorem leads_annotationPart : Leads (· = .mark .at) TokenGrammar.annotation :=
  (leads_one (P := (· = .mark .at)) rfl).seq _

theorem decides_annotationPart :
    Decides (fun c => c.current.kind = .mark .at) annotation TokenGrammar.annotation N := by
  unfold annotation
  refine (decides_passing (by simp) fun _ h => h).andThen fun sign => ?_
  refine decides_identifier.andThen fun name => (decides_mark _).andThen fun _ => ?_
  refine decides_jsonValue.andThen fun v => (decides_mark _).andThen fun closing => ?_
  exact decides_done _

theorem decides_annotations (hN : Leads (· ≠ .mark .at) N) :
    Decides pre annotations TokenGrammar.annotations N := by
  refine decides_many (fun c hc => ?_) (fun c hc => isAt_of_failure hc _) decides_annotationPart
    leads_annotationPart hN
  simp [isAt_eq hc]

/-- After annotations. -/
theorem leads_annotations_mul {P : Token.Kind → Prop} {L : Kinds} (hL : Leads P L) :
    Leads (fun k => k = .mark .at ∨ P k) (TokenGrammar.annotations * L) :=
  (leads_annotationPart.mono fun _ h => .inl h).kstar_mul (hL.mono fun _ h => .inr h)

end Annotations

section Types

variable {pre : Cursor → Prop} {N : Kinds} {levels : Nat}

theorem typeRule_eq (T : Kinds) : TokenGrammar.typeRule T =
    one (.keyword .array) *
        seq [mark .lessThan, seq [TokenGrammar.annotations, T], mark .greaterThan] +
      (one (.keyword .map) *
        seq [mark .lessThan, seq [TokenGrammar.annotations, T], mark .greaterThan] +
      (one (.keyword .union) *
        seq [mark .leftBrace, list (seq [TokenGrammar.annotations, T]), mark .rightBrace] +
      (one (.keyword .decimal) *
        seq [mark .leftParen, one .integer, opt (seq [mark .comma, one .integer]),
          mark .rightParen, opt (mark .question)] +
      seq [TokenGrammar.typeName, opt (mark .question)]))) := by
  simp only [TokenGrammar.typeRule, seq_cons, add_assoc, word]

theorem leads_typeName : Leads (fun k => k.isName = true ∧ k ∉ ([.keyword .array, .keyword .map,
    .keyword .union, .keyword .decimal, .keyword .void] : List Token.Kind))
      TokenGrammar.typeName := TokenGrammar.leads_oneOf fun _ h => h

theorem leads_plainType :
    Leads (fun k => k.isName = true ∧ k ≠ .keyword .void) TokenGrammar.plainType := by
  have hname : Leads (fun k => k.isName = true ∧ k ≠ .keyword .void)
      (seq [TokenGrammar.typeName, opt (mark .question)]) :=
    (leads_typeName.mono fun k hk => ⟨hk.1, fun h => hk.2 (by simp [h])⟩).seq _
  have hword (k : Keyword) (hk : k ≠ .void) (L : Kinds) :
      Leads (fun k => k.isName = true ∧ k ≠ .keyword .void) (one (.keyword k) * L) :=
    TokenGrammar.leads_one_mul ⟨rfl, by simpa using hk⟩ L
  rw [TokenGrammar.plainType_eq, typeRule_eq]
  exact (hword .array nofun _).add ((hword .map nofun _).add ((hword .union nofun _).add
    ((hword .decimal nofun _).add hname)))

theorem leads_element : Leads (fun k => k = .mark .at ∨ k.isName = true)
    (seq [TokenGrammar.annotations, TokenGrammar.plainType]) := by
  rw [seq_cons]
  exact leads_annotations_mul ((leads_plainType.mono fun _ hk => hk.1).seq _)

theorem name_ne_at {k : Token.Kind} (h : k.isName = true) : k ≠ .mark .at := by
  rintro rfl
  cases h

/-- A type with the annotations before it. -/
theorem decides_element {g : Token → Span}
    (h : ∀ as start {pre N}, Leads (· ≠ .mark .question) N →
      Decides pre (plainType levels as start) TokenGrammar.plainType N)
    (hN : Leads (· ≠ .mark .question) N) :
    Decides pre (do
        let first ← peek
        let as ← annotations
        plainType levels as (g first))
      (seq [TokenGrammar.annotations, TokenGrammar.plainType]) N := by
  refine decides_peek fun first => (decides_annotations ?_).andThen fun as => ?_
  · exact ((leads_plainType.mono fun k hk => name_ne_at hk.1).seq _).mul N
  · rw [seq_cons, seq_nil, mul_one]
    exact h as _ hN

/-- The word or the name of a type without parts. -/
theorem decides_typeName {as : List Annotation} {start : Span} (hN : Leads (· ≠ .mark .question) N)
    (hpre : ∀ c, pre c → c.current.kind ∉ ([.keyword .array, .keyword .map, .keyword .union,
      .keyword .decimal] : List Token.Kind)) :
    Decides pre (do
        let c ← get
        match c.primitive? with
        | some k =>
          let _ ← advance
          let isOptional ← accept (.mark .question)
          let c ← get
          pure (TypeNode.primitive k ⟨as, isOptional, start.to c.previous.span⟩)
        | none =>
          if (c.isAtName && !c.isAt (.keyword .void)) = true then
            let name ← identifier
            let isOptional ← accept (.mark .question)
            let c ← get
            pure (TypeNode.reference name ⟨as, isOptional, start.to c.previous.span⟩)
          else
            failExpecting typeStarts
            pure (TypeNode.missing as))
      (seq [TokenGrammar.typeName, opt (mark .question)]) N := by
  have hafter {β : Type} {f : Bool → Cursor → β} :
      Decides anywhere (do
          let isOptional ← accept (.mark .question)
          let c ← get
          pure (f isOptional c)) (seq [opt (mark .question)]) N :=
    (decides_mayAccept (by simp) (by rwa [seq_nil, one_mul])).andThen fun _ => decides_returned _
  refine decides_get fun c => ?_
  split
  · rename_i k hk
    obtain ⟨-, hkind, htype⟩ := kind_of_primitive hk
    refine (decides_advance (fun h => by cases h.1) ⟨.identifier, rfl, by simp⟩ ?_).andThen
      fun _ => hafter
    rintro c ⟨hc, rfl⟩
    have hnot := hpre c hc
    refine ⟨by rw [hkind]; rfl, fun hmem => ?_⟩
    have hvoid : c.current.kind ≠ .keyword .void := by
      rw [hkind]
      rintro ⟨⟩
      cases htype
    simp_all
  · rename_i hnone
    split
    · rename_i hname
      simp only [Bool.and_eq_true, Bool.not_eq_true', Cursor.isAtName, Option.isNone_iff_eq_none]
        at hname
      obtain ⟨⟨hunfailed, hname⟩, hvoid⟩ := hname
      refine (decides_identifier_of ⟨.identifier, rfl, by simp⟩ (fun _ h => h.1) ?_).andThen
        fun _ => hafter
      rintro c ⟨hc, rfl⟩
      have hnot := hpre c hc
      simp only [isAt_eq hunfailed, decide_eq_false_iff_not] at hvoid
      exact ⟨hname, by simp_all⟩
    · rename_i hname
      have hword : [.identifier] ∈ TokenGrammar.typeName := ⟨_, ⟨rfl, by simp⟩, rfl⟩
      refine decides_refuse ⟨_, mem_seq_cons hword (mem_seq_cons (nil_mem_opt _) rfl)⟩
        (leads_typeName.seq _) ?_
      rintro c ⟨hc, rfl⟩ hunfailed hk
      have hvoid : c.current.kind ≠ .keyword .void := fun h => hk.2 (by simp [h])
      exact hname (by simp [Cursor.isAtName, hunfailed, isAt_eq hunfailed, hk.1, hvoid])

theorem mem_plainType_identifier : [.identifier] ∈ TokenGrammar.plainType := by
  have hname : [.identifier] ∈ TokenGrammar.typeName := ⟨_, ⟨rfl, by simp⟩, rfl⟩
  rw [TokenGrammar.plainType_eq, typeRule_eq]
  exact .inr (.inr (.inr (.inr (mem_seq_cons hname (mem_seq_cons (nil_mem_opt _) rfl)))))

theorem decides_plainType (levels : Nat) (as : List Annotation) (start : Span)
    (hN : Leads (· ≠ .mark .question) N) :
    Decides pre (plainType levels as start) TokenGrammar.plainType N := by
  induction levels generalizing as start pre N with
  | zero => exact decides_deep ⟨_, mem_plainType_identifier⟩ (by decide)
  | succ levels ih =>
    have helement {N : Kinds} (hN : Leads (· ≠ .mark .question) N) :
        Decides anywhere (do
            let first ← peek
            let as ← annotations
            plainType levels as first.span)
          (seq [TokenGrammar.annotations, TokenGrammar.plainType]) N :=
      decides_element (g := Token.span) (fun as start _ _ hN => ih as start hN) hN
    have hclose {m : Mark} (hm : m ≠ .question) (N : Kinds) :
        Leads (· ≠ .mark .question) (seq [mark m] * N) :=
      ((leads_one (by simpa using hm)).seq []).mul N
    have hname (k : Keyword)
        (hk : .keyword k ∈ ([.keyword .array, .keyword .map, .keyword .union, .keyword .decimal,
          .keyword .void] : List Token.Kind)) :
        Leads (· ≠ .keyword k) (seq [TokenGrammar.typeName, opt (mark .question)]) :=
      (leads_typeName.seq _).mono fun _ h he => h.2 (he ▸ hk)
    rw [TokenGrammar.plainType_eq, typeRule_eq]
    unfold plainType
    refine decides_either (by simp) (by simpa using hname .array (by simp)) ?_ ?_
    · refine (decides_mark _).andThen fun _ =>
        (helement (hclose (m := .greaterThan) (by decide) N)).andThen fun items => ?_
      exact (decides_mark _).andThen fun _ => decides_returned _
    refine decides_either (by simp) (by simpa using hname .map (by simp)) ?_ ?_
    · refine (decides_mark _).andThen fun _ =>
        (helement (hclose (m := .greaterThan) (by decide) N)).andThen fun items => ?_
      exact (decides_mark _).andThen fun _ => decides_returned _
    refine decides_either (by simp) (by simpa using hname .union (by simp)) ?_ ?_
    · refine (decides_mark _).andThen fun _ => (decides_separated (helement ?_) ?_).andThen
        fun branches => (decides_mark _).andThen fun _ => decides_returned _
      · exact ((leads_one (by simp)).mul _).kstar_mul (hclose (m := .rightBrace) (by decide) N)
      · exact ((leads_one (by simp)).seq []).mul N
    refine decides_either (by simp) (by simpa using hname .decimal (by simp)) ?_ ?_
    · have hrest {scale : Option Text} {precision : Text} : Decides anywhere (do
            let _ ← expectMark .rightParen
            let isOptional ← accept (.mark .question)
            let c ← get
            pure (TypeNode.decimal precision scale ⟨as, isOptional, start.to c.previous.span⟩))
          (seq [mark .rightParen, opt (mark .question)]) N :=
        (decides_mark _).andThen fun _ =>
          (decides_mayAccept (by simp) (by rwa [seq_nil, one_mul])).andThen fun _ =>
            decides_returned _
      refine (decides_mark _).andThen fun _ =>
        (decides_expect (by simp)).andThen fun precision => ?_
      refine decides_opt [one .integer] _ (by simp) ?_ hrest.here ?_
      · exact (decides_expect (by simp)).map.andThen fun scale => hrest
      · exact ((leads_one (by simp)).seq _).mul N
    refine decides_typeName hN fun c hc => ?_
    obtain ⟨⟨⟨⟨-, harray⟩, hmap⟩, hunion⟩, hdecimal⟩ := hc
    simp [harray, hmap, hunion, hdecimal]

theorem decides_fullType (hN : Leads (· ≠ .mark .question) N) :
    Decides pre fullType TokenGrammar.fullType N :=
  (decides_element (g := Token.span) (fun as start _ _ hN => decides_plainType _ as start hN)
    hN).here

end Types

section Declarations

variable {pre : Cursor → Prop} {N : Kinds}

theorem leads_name : Leads (fun k => k.isName = true) name := TokenGrammar.leads_oneOf fun _ h => h

/-- What starts with an annotation or a name starts with no other mark. -/
theorem leads_ne_mark {L : Kinds} {m : Mark} (hm : m ≠ .at)
    (hL : Leads (fun k => k = .mark .at ∨ k.isName = true) L) : Leads (· ≠ .mark m) L := by
  refine hL.mono ?_
  rintro k (rfl | hk) h
  · exact hm (by simpa using h.symm)
  · cases h
    cases hk

theorem leads_fullType : Leads (fun k => k = .mark .at ∨ k.isName = true) TokenGrammar.fullType :=
  leads_element

theorem leads_declarator :
    Leads (fun k => k = .mark .at ∨ k.isName = true) TokenGrammar.declarator := by
  rw [TokenGrammar.declarator, seq_cons]
  exact leads_annotations_mul (leads_name.seq _)

theorem decides_declarator (hN : Leads (· ≠ .mark .equals) N) :
    Decides pre declarator TokenGrammar.declarator N := by
  unfold declarator
  refine decides_peek fun first => decides_takeDoc first fun doc => ?_
  refine (decides_annotations ((leads_name.mono fun _ => name_ne_at).seq _ |>.mul N)).andThen
    fun as => decides_identifier.andThen fun name => ?_
  refine decides_opt [TokenGrammar.json] [] (by simp) ?_ ?_ ?_
  · exact decides_jsonValue.map.andThen fun default => decides_returned _
  · exact decides_returned _
  · rwa [seq_nil, one_mul]

/-- Declarators with commas between them, in front of a mark. -/
theorem decides_declarators {m : Mark} {Ls : List Kinds} (hequals : m ≠ .equals)
    (hcomma : m ≠ .comma) :
    Decides pre (separated declarator) (list TokenGrammar.declarator) (seq (mark m :: Ls) * N) := by
  refine decides_separated (decides_declarator ?_) ?_
  · refine ((leads_one (by simp)).mul _).kstar_mul (((leads_one ?_).seq Ls).mul N)
    simpa using hequals
  · refine ((leads_one ?_).seq Ls).mul N
    simpa using hcomma

theorem decides_field : Decides pre field TokenGrammar.field N := by
  unfold field
  refine decides_peek fun first => decides_takeDoc first fun doc => ?_
  refine (decides_fullType ?_).andThen fun type => ?_
  · exact ((leads_ne_mark (m := .question) nofun leads_declarator).list.seq _).mul N
  refine (decides_declarators (m := .semicolon) nofun nofun).andThen fun ds => ?_
  exact (decides_mark _).andThen fun _ => decides_done _

theorem leads_field : Leads (fun k => k = .mark .at ∨ k.isName = true) TokenGrammar.field :=
  leads_fullType.seq _

/-- The parts inside braces go on up to the closing one. -/
theorem decides_inBraces {α : Type} {part : Reader α} {L : Kinds} {Ls : List Kinds}
    (hpart : Decides anywhere part L (L∗ * (seq (mark .rightBrace :: Ls) * N)))
    (hL : Leads (fun k => k = .mark .at ∨ k.isName = true) L) :
    Decides pre (many inBraces part) L∗ (seq (mark .rightBrace :: Ls) * N) := by
  refine decides_many (P := fun k => k ≠ .mark .rightBrace ∧ k ≠ .endOfFile) (fun c hc => ?_)
    (fun c hc => by simp [inBraces, hc]) hpart.here ?_ ?_
  · simp [inBraces, hc, isAt_eq hc, Cursor.atEnd]
  · refine hL.mono ?_
    rintro k (rfl | hk)
    · simp
    · refine ⟨?_, ?_⟩
      all_goals
        rintro rfl
        cases hk
  · exact ((leads_one (by simp)).seq _).mul N

theorem record_or_error :
    word .record + word .error =
      oneOf fun k => k = .keyword .record ∨ k = .keyword .error := by
  ext w
  constructor
  · rintro (rfl | rfl)
    · exact ⟨_, .inl rfl, rfl⟩
    · exact ⟨_, .inr rfl, rfl⟩
  · rintro ⟨_, rfl | rfl, rfl⟩
    · exact .inl rfl
    · exact .inr rfl

theorem decides_record (h : Heading)
    (hpre : ∀ c, pre c → c.current.kind = .keyword .record ∨ c.current.kind = .keyword .error) :
    Decides pre (record h) TokenGrammar.record N := by
  unfold record
  rw [TokenGrammar.record, record_or_error]
  refine (decides_advance (by simp) ⟨_, .inl rfl⟩ hpre).andThen fun keyword => ?_
  refine decides_identifier.andThen fun name => (decides_mark _).andThen fun _ => ?_
  refine (decides_inBraces decides_field leads_field).andThen fun fields => ?_
  exact (decides_mark _).andThen fun closing => decides_done _

theorem decides_enumeration (h : Heading) (hpre : ∀ c, pre c → c.current.kind = .keyword .enum)
    (hN : Leads (· ≠ .mark .equals) N) :
    Decides pre (enumeration h) TokenGrammar.enumeration N := by
  unfold enumeration
  refine (decides_passing (by simp) hpre).andThen fun keyword => ?_
  refine decides_identifier.andThen fun name => (decides_mark _).andThen fun _ => ?_
  have hclose {m : Mark} : Leads (· ≠ .mark m) TokenGrammar.name :=
    leads_name.mono (by rintro _ hk rfl; cases hk)
  refine decides_enclosed nofun hclose decides_identifier fun symbols => ?_
  refine (decides_mark _).andThen fun closing => ?_
  refine decides_opt [TokenGrammar.name, mark .semicolon] [] (by simp) ?_ ?_ ?_
  · refine decides_identifier.andThen fun default => ?_
    exact (decides_mark _).andThen fun terminator => decides_done _
  · exact decides_done _
  · rwa [seq_nil, one_mul]

theorem decides_fixed (h : Heading) (hpre : ∀ c, pre c → c.current.kind = .keyword .fixed) :
    Decides pre (fixed h) TokenGrammar.fixed N := by
  unfold fixed
  refine (decides_passing (by simp) hpre).andThen fun keyword => ?_
  refine decides_identifier.andThen fun name => (decides_mark _).andThen fun _ => ?_
  refine (decides_expect (by simp)).andThen fun size => (decides_mark _).andThen fun _ => ?_
  exact (decides_mark _).andThen fun terminator => decides_done _

theorem decides_parameter (hN : Leads (· ≠ .mark .equals) N) :
    Decides pre parameter TokenGrammar.parameter N := by
  unfold parameter
  refine decides_peek fun first => decides_takeDoc first fun doc => ?_
  refine (decides_fullType ?_).andThen fun type => ?_
  · exact ((leads_ne_mark (m := .question) nofun leads_declarator).seq _).mul N
  · refine (decides_declarator ?_).andThen fun d => decides_done _
    rwa [seq_nil, one_mul]

theorem decides_resultType (hN : Leads (· ≠ .mark .question) N) :
    Decides pre resultType (word .void + TokenGrammar.plainType) N := by
  unfold resultType
  refine decides_isAt ?_ ?_ ((leads_one (P := (· = .keyword .void)) rfl).mul N) ?_
  · exact (decides_passing (by simp) fun _ hc => hc.2).returning
  · exact decides_peek fun first => (decides_plainType _ _ _ hN).returning
  · exact (leads_plainType.mono fun _ hk => hk.2).mul N

theorem decides_thrown (hcomma : Leads (· ≠ .mark .comma) N)
    (hthrows : Leads (· ≠ .keyword .throws) N) :
    Decides pre thrown (opt (seq [word .throws, list name])) N := by
  unfold thrown
  rw [opt, seq_cons]
  refine decides_accept (by simp) ?_ (decides_pure _) (by rwa [one_mul])
  rw [seq_cons, seq_nil, mul_one]
  exact (decides_separated decides_identifier hcomma).map

theorem leads_message : Leads (fun k => k.isName = true) TokenGrammar.message := by
  have hvoid : Leads (fun k => k.isName = true) (word .void) := leads_one rfl
  exact (hvoid.add (leads_plainType.mono fun _ hk => hk.1)).seq _

theorem decides_message (h : Heading) : Decides pre (message h) TokenGrammar.message N := by
  have hclose {m : Mark} {Ls : List Kinds} {k : Token.Kind} (hm : .mark m ≠ k) :
      Leads (· ≠ k) (seq (mark m :: Ls) * N) :=
    ((leads_one (P := (· ≠ k)) hm).seq Ls).mul N
  unfold message
  refine (decides_resultType ?_).andThen fun result => decides_identifier.andThen fun name => ?_
  · exact ((leads_name.mono (by rintro _ hk rfl; cases hk)).seq _).mul N
  refine (decides_mark _).andThen fun _ => ?_
  refine decides_enclosed nofun (leads_ne_mark nofun (leads_fullType.seq _)) (decides_parameter ?_)
    fun parameters => (decides_mark _).andThen fun _ => ?_
  · exact ((leads_one (by simp)).mul _).kstar_mul (hclose (by simp))
  have hend {β : Type} {g : Token → β} :
      Decides anywhere (expectMark .semicolon >>= fun t => pure (g t)) (seq [mark .semicolon]) N :=
    (decides_mark _).andThen fun _ => decides_done _
  rw [accept_bind_eq, seq_cons, add_mul, word]
  refine decides_accept (by simp) ?_ ?_ ?_
  · simp only [if_true, pure_bind]
    exact hend
  · simp only [Bool.false_eq_true, if_false]
    exact (decides_thrown (hclose (by simp)) (hclose (by simp))).bind fun errors => hend
  · rw [mul_assoc]
    exact ((leads_one (by simp)).seq _).opt_mul (hclose (by simp))

theorem decides_importDecl (hpre : ∀ c, pre c → c.current.kind = .keyword .importFrom) :
    Decides pre importDecl TokenGrammar.importDecl N := by
  have hrest {first : Token} {kind : ImportKind} : Decides anywhere (do
        let location ← expect .string
        let terminator ← expectMark .semicolon
        pure (⟨kind, location.text, first.span.to terminator.span⟩ : ImportDecl))
      (seq [one .string, mark .semicolon]) N :=
    (decides_expect (by simp)).andThen fun location =>
      (decides_mark _).andThen fun terminator => decides_done _
  unfold importDecl
  refine (decides_passing (by simp) hpre).andThen fun keyword => ?_
  rw [seq_cons, add_mul, add_mul, add_assoc]
  refine decides_either (by simp) (by simp [word]) hrest ?_
  refine decides_either (by simp) (by simp [word]) hrest ?_
  exact decides_accept_or_fail (by simp) hrest

/-- The kinds that tell which definition is read. -/
def definitionWords : List Token.Kind :=
  [.keyword .record, .keyword .error, .keyword .enum, .keyword .fixed]

theorem leads_record :
    Leads (fun k => k = .keyword .record ∨ k = .keyword .error) TokenGrammar.record := by
  rw [TokenGrammar.record, record_or_error]
  exact (TokenGrammar.leads_oneOf fun _ hk => hk).seq _

theorem leads_enumeration : Leads (· = .keyword .enum) TokenGrammar.enumeration :=
  (leads_one (P := (· = .keyword .enum)) rfl).seq _

theorem leads_fixed : Leads (· = .keyword .fixed) TokenGrammar.fixed :=
  (leads_one (P := (· = .keyword .fixed)) rfl).seq _

/-- The messages among what may follow annotations. -/
def messages (withMessages : Bool) : Kinds :=
  if withMessages then apart definitionWords TokenGrammar.message else 0

theorem leads_messages (withMessages : Bool) :
    Leads (fun k => k.isName = true ∧ k ∉ definitionWords) (messages withMessages) := by
  unfold messages
  split
  · exact TokenGrammar.leads_apart leads_message
  · rintro w ⟨⟩

theorem leads_definition_of {P : Token.Kind → Prop} {withMessages : Bool}
    (hwords : ∀ k ∈ definitionWords, P k) (hmessages : Leads P (messages withMessages)) :
    Leads P (TokenGrammar.definition withMessages) := by
  refine Leads.add (Leads.add (Leads.add (leads_record.mono ?_) (leads_enumeration.mono ?_))
    (leads_fixed.mono ?_)) hmessages
  · rintro _ (rfl | rfl)
    · exact hwords _ (by decide)
    · exact hwords _ (by decide)
  · rintro _ rfl
    exact hwords _ (by decide)
  · rintro _ rfl
    exact hwords _ (by decide)

theorem leads_definition (withMessages : Bool) :
    Leads (fun k => k.isName = true) (TokenGrammar.definition withMessages) :=
  leads_definition_of (by decide) ((leads_messages withMessages).mono fun _ hk => hk.1)

theorem mem_message_void : [.keyword .void, .identifier, .mark .leftParen, .mark .rightParen,
    .mark .semicolon] ∈ TokenGrammar.message := by
  refine mem_seq_cons (u := [.keyword .void]) (.inl rfl) ?_
  refine mem_seq_cons (u := [.identifier]) ⟨_, rfl, rfl⟩ ?_
  refine mem_seq_cons (u := [.mark .leftParen]) rfl ?_
  refine mem_seq_cons (u := []) (nil_mem_opt _) ?_
  refine mem_seq_cons (u := [.mark .rightParen]) rfl ?_
  refine mem_seq_cons (u := []) (.inr (nil_mem_opt _)) ?_
  exact mem_seq_cons (u := [.mark .semicolon]) rfl rfl

theorem mem_record : [.keyword .record, .identifier, .mark .leftBrace, .mark .rightBrace] ∈
    TokenGrammar.record := by
  refine mem_seq_cons (u := [.keyword .record]) (.inl rfl) ?_
  refine mem_seq_cons (u := [.identifier]) ⟨_, rfl, rfl⟩ ?_
  refine mem_seq_cons (u := [.mark .leftBrace]) rfl ?_
  refine mem_seq_cons (u := []) (Language.nil_mem_kstar _) ?_
  exact mem_seq_cons (u := [.mark .rightBrace]) rfl rfl

section Definition

variable (withMessages : Bool) (h : Heading)

theorem definition_eq : TokenGrammar.definition withMessages = TokenGrammar.record +
    (TokenGrammar.enumeration + (TokenGrammar.fixed + messages withMessages)) := by
  simp only [TokenGrammar.definition, messages, definitionWords, add_assoc]

theorem leads_messages_ne {k : Token.Kind} (hk : k ∈ definitionWords) :
    Leads (· ≠ k) (messages withMessages) :=
  (leads_messages withMessages).mono fun _ hk' he => hk'.2 (he ▸ hk)

theorem decides_definition_record
    (hat : ∀ c, pre c → c.current.kind = .keyword .record ∨ c.current.kind = .keyword .error) :
    Decides pre (record h >>= fun d => pure (some (Declaration.record d)))
      (TokenGrammar.definition withMessages) N := by
  rw [definition_eq]
  refine (decides_record h hat).returning.widen
    (P := fun k => k = .keyword .record ∨ k = .keyword .error) hat ?_
  refine (leads_enumeration.mono (by simp)).add ((leads_fixed.mono (by simp)).add
    ((leads_messages withMessages).mono ?_))
  rintro _ ⟨-, hnot⟩ (rfl | rfl) <;> simp [definitionWords] at hnot

theorem decides_definition_enumeration (hat : ∀ c, pre c → c.current.kind = .keyword .enum)
    (hN : Leads (· ≠ .mark .equals) N) :
    Decides pre (enumeration h >>= fun d => pure (some (Declaration.enum d)))
      (TokenGrammar.definition withMessages) N := by
  rw [definition_eq, add_left_comm]
  refine (decides_enumeration h hat hN).returning.widen (P := (· = .keyword .enum)) hat ?_
  exact (leads_record.mono (by simp)).add ((leads_fixed.mono (by simp)).add
    (leads_messages_ne withMessages (by decide)))

theorem decides_definition_fixed (hat : ∀ c, pre c → c.current.kind = .keyword .fixed) :
    Decides pre (fixed h >>= fun d => pure (some (Declaration.fixed d)))
      (TokenGrammar.definition withMessages) N := by
  rw [definition_eq, ← add_assoc, add_left_comm]
  refine (decides_fixed h hat).returning.widen (P := (· = .keyword .fixed)) hat ?_
  exact ((leads_record.mono (by simp)).add (leads_enumeration.mono (by simp))).add
    (leads_messages_ne withMessages (by decide))

/-- What starts with none of the words of definitions is a message, if there may be messages. -/
theorem decides_definition_message (hat : ∀ c, pre c → c.current.kind ∉ definitionWords) :
    Decides pre
      (if withMessages = true then message h >>= fun d => pure (some (Declaration.message d))
      else
        failExpecting [.keyword .importFrom, .keyword .record, .keyword .error, .keyword .enum,
          .keyword .fixed, .mark .at] >>= fun _ => pure none)
      (TokenGrammar.definition withMessages) N := by
  have hwords : Leads (· ∈ definitionWords)
      (TokenGrammar.record + (TokenGrammar.enumeration + TokenGrammar.fixed)) :=
    (leads_record.mono (by simp [definitionWords])).add ((leads_enumeration.mono
      (by simp [definitionWords])).add (leads_fixed.mono (by simp [definitionWords])))
  rw [definition_eq, ← add_assoc, ← add_assoc, add_assoc TokenGrammar.record, messages]
  split
  · rw [add_comm]
    refine Decides.widen (P := (· ∉ definitionWords)) ?_ hat (hwords.mono fun _ hk h => h hk)
    refine ((decides_message h).restrict leads_message ⟨_, mem_message_void, ?_⟩ hat).returning
    rintro _ hk ⟨⟩
    simp [definitionWords] at hk
  · rw [add_zero]
    exact decides_refuse ⟨_, .inl mem_record⟩ hwords fun d hd _ => hat d hd

/-- What follows the annotations is picked by its first token. -/
theorem decides_definition (hN : Leads (· ≠ .mark .equals) N) :
    Decides pre (do
        let c ← get
        if c.failure.isSome = true then pure none
        else
          match c.current.kind with
          | .keyword .record | .keyword .error =>
            let d ← record h
            pure (some (Declaration.record d))
          | .keyword .enum =>
            let d ← enumeration h
            pure (some (.enum d))
          | .keyword .fixed =>
            let d ← fixed h
            pure (some (.fixed d))
          | _ =>
            if withMessages = true then
              let d ← message h
              pure (some (.message d))
            else
              failExpecting [.keyword .importFrom, .keyword .record, .keyword .error,
                .keyword .enum, .keyword .fixed, .mark .at]
              pure none)
      (TokenGrammar.definition withMessages) N := by
  refine decides_get fun c => ?_
  have hat (P : Token.Kind → Prop) (hk : P c.current.kind) :
      ∀ d, pre d ∧ d = c → P d.current.kind := by
    rintro _ ⟨-, rfl⟩
    exact hk
  split
  · rename_i hfailed
    refine ⟨⟨_, .inl (.inl (.inl mem_record))⟩, fun _ _ => rfl, ?_⟩
    rintro c ⟨-, rfl⟩ hunfailed
    simp [hunfailed] at hfailed
  split
  · rename_i hkind
    exact decides_definition_record withMessages h (hat (fun k => k = _ ∨ k = _) (.inl hkind))
  · rename_i hkind
    exact decides_definition_record withMessages h (hat (fun k => k = _ ∨ k = _) (.inr hkind))
  · rename_i hkind
    exact decides_definition_enumeration withMessages h (hat (· = _) hkind) hN
  · rename_i hkind
    exact decides_definition_fixed withMessages h (hat (· = _) hkind)
  · rename_i hrecord herror henum hfixed
    refine decides_definition_message withMessages h (hat (· ∉ definitionWords) ?_)
    simp only [definitionWords, List.mem_cons, List.not_mem_nil, or_false, not_or]
    exact ⟨hrecord, herror, henum, hfixed⟩

end Definition

theorem leads_declaration_of {P : Token.Kind → Prop} {withMessages : Bool}
    (himport : P (.keyword .importFrom))
    (hdefinition : Leads P (TokenGrammar.definition withMessages)) :
    Leads (fun k => k = .mark .at ∨ P k) (TokenGrammar.declaration withMessages) := by
  have himports : Leads (fun k => k = .mark .at ∨ P k) TokenGrammar.importDecl :=
    (leads_one (P := fun k => k = .mark .at ∨ P k) (.inr himport)).seq _
  refine himports.add ((TokenGrammar.leads_apart ?_).mono fun _ hk => hk.1)
  rw [seq_cons]
  exact leads_annotations_mul (hdefinition.seq _)

theorem leads_declaration (withMessages : Bool) :
    Leads (fun k => k = .mark .at ∨ k.isName = true) (TokenGrammar.declaration withMessages) :=
  leads_declaration_of rfl (leads_definition withMessages)

/-- Outside a protocol a declaration starts with a word of its own or an annotation. -/
theorem leads_declaration_false :
    Leads (fun k => k = .mark .at ∨ k = .keyword .importFrom ∨ k ∈ definitionWords)
      (TokenGrammar.declaration false) := by
  refine leads_declaration_of (.inl rfl) (leads_definition_of (fun _ hk => .inr hk) ?_)
  rintro w ⟨⟩

theorem decides_declaration (withMessages : Bool) (hN : Leads (· ≠ .mark .equals) N) :
    Decides pre (declaration withMessages) (TokenGrammar.declaration withMessages) N := by
  have hdefinition : Leads (fun k => k.isName = true)
      (seq [TokenGrammar.definition withMessages]) := (leads_definition withMessages).seq _
  have hannotated : Leads (fun _ => True)
      (seq [TokenGrammar.annotations, TokenGrammar.definition withMessages]) := by
    rw [seq_cons]
    exact (leads_annotations_mul hdefinition).mono fun _ _ => trivial
  have happart : Leads (· ≠ .keyword .importFrom) (apart [.keyword .importFrom]
      (seq [TokenGrammar.annotations, TokenGrammar.definition withMessages])) :=
    (TokenGrammar.leads_apart hannotated).mono fun _ hk => by simpa using hk.2
  have himport : Leads (· = .keyword .importFrom) TokenGrammar.importDecl :=
    (leads_one (P := (· = .keyword .importFrom)) rfl).seq _
  unfold declaration
  refine decides_peek fun first => ?_
  refine decides_isAt ?_ ?_ (himport.mul N) (happart.mul N)
  · exact (decides_importDecl fun _ hc => hc.2).returning
  refine Decides.restrict (P := fun _ => True) ?_ hannotated ?_ fun c hc => by simpa using hc.2
  · refine decides_takeDoc first fun doc => (decides_annotations ?_).andThen fun as => ?_
    · exact (hdefinition.mono fun _ => name_ne_at).mul N
    · rw [seq_cons, seq_nil, mul_one]
      exact decides_definition withMessages ⟨as, doc, first⟩ hN
  · refine ⟨[] ++ (_ ++ []), mem_seq_cons (Language.nil_mem_kstar _)
      (mem_seq_cons (.inl (.inl (.inl mem_record))) rfl), ?_⟩
    rintro k hk ⟨⟩
    simp at hk

/-- Declarations in front of something that does not start with an equals sign. -/
theorem leads_declarations_mul (withMessages : Bool) (hN : Leads (· ≠ .mark .equals) N) :
    Leads (· ≠ .mark .equals) ((TokenGrammar.declaration withMessages)∗ * N) :=
  (leads_ne_mark (m := .equals) nofun (leads_declaration withMessages)).kstar_mul hN

theorem decides_protocol (h : Heading) : Decides pre (protocol h) TokenGrammar.protocol N := by
  unfold protocol
  refine (decides_expect (by simp)).andThen fun keyword => ?_
  refine decides_identifier.andThen fun name => (decides_mark _).andThen fun _ => ?_
  refine (decides_inBraces (decides_declaration true ?_) (leads_declaration true)).andThen
    fun body => (decides_mark _).andThen fun closing => decides_done _
  exact leads_declarations_mul true (((leads_one (by simp)).seq _).mul N)

section Schemas

variable (hN : Leads (· = .endOfFile) N)
include hN

theorem decides_declarations :
    Decides pre (many (fun c => c.failure.isNone && !c.atEnd) (declaration false))
      (TokenGrammar.declaration false)∗ N := by
  have hother {k : Token.Kind} (hk : .endOfFile ≠ k) : Leads (· ≠ k) N :=
    hN.mono (by rintro _ rfl; exact hk)
  refine decides_many (P := (· ≠ .endOfFile)) (fun c hc => ?_) (fun c hc => by simp [hc])
    (decides_declaration false (leads_declarations_mul false (hother (by simp)))).here ?_ ?_
  · simp [hc, Cursor.atEnd]
  · refine leads_declaration_false.mono ?_
    rintro _ (rfl | rfl | hk) h
    · cases h
    · cases h
    · rw [h] at hk
      exact absurd hk (by decide)
  · exact hN.mono (by rintro _ rfl; simp)

/-- Up to the end of the file there are declarations, which start with words of their own. -/
theorem leads_declarations_ne (k : Keyword)
    (hk : .keyword k ∉ .keyword .importFrom :: definitionWords) :
    Leads (· ≠ .keyword k) (seq [(TokenGrammar.declaration false)∗] * N) := by
  rw [seq_cons, seq_nil, mul_one]
  refine (leads_declaration_false.mono ?_).kstar_mul (hN.mono (by rintro _ rfl; simp))
  rintro _ (h | h) rfl
  · cases h
  · exact hk (List.mem_cons.mpr h)

/-- The main type, if there is one, and the declarations. -/
theorem decides_mainType (space : Option Identifier) :
    Decides pre (do
        let main ←
          if ← accept (.keyword .schema) then
            let type ← fullType
            let _ ← expectMark .semicolon
            pure (some type)
          else pure none
        let declarations ← many (fun c => c.failure.isNone && !c.atEnd) (declaration false)
        return SourceUnit.Body.schemas space main (declarations.filterMap id))
      (seq [opt (seq [word .schema, TokenGrammar.fullType, mark .semicolon]),
        (TokenGrammar.declaration false)∗]) N := by
  have hrest {pre : Cursor → Prop} (main : Option TypeNode) : Decides pre (do
        let declarations ← many (fun c => c.failure.isNone && !c.atEnd) (declaration false)
        return SourceUnit.Body.schemas space main (declarations.filterMap id))
      (seq [(TokenGrammar.declaration false)∗]) N := by
    rw [seq_cons, seq_nil, mul_one]
    exact (decides_declarations hN).returning
  refine decides_opt [TokenGrammar.fullType, mark .semicolon] _ (by simp) ?_ (hrest none)
    (leads_declarations_ne hN .schema (by decide))
  refine (decides_fullType ?_).andThen fun type => (decides_mark _).andThen fun _ => ?_
  · exact ((leads_one (by simp)).seq _).mul N
  · exact hrest (some type)

theorem decides_schemas : Decides pre schemas TokenGrammar.schemas N := by
  unfold schemas
  refine decides_opt [name, mark .semicolon] _ (by simp) ?_ (decides_mainType hN none) ?_
  · refine decides_identifier.andThen fun space => (decides_mark _).andThen fun _ => ?_
    exact decides_mainType hN (some space)
  · rw [seq_cons, mul_assoc]
    exact ((leads_one (by simp)).seq _).opt_mul (leads_declarations_ne hN .nameSpace (by decide))

end Schemas

end Declarations

end Reader

end AvroIdl
