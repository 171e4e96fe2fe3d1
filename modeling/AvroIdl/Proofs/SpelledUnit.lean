import AvroIdl.Proofs.AcceptedUnit
import AvroIdl.Proofs.SpelledType

/-!
# Declarations and sources that are read were spelt

The constructs that the readers give without a failure are well formed, and their printed tokens fit
those that were passed.
-/
namespace AvroIdl

open Token (ofMark ofKeyword)

namespace Reader

section Declarations

theorem spells_name :
    Spells anywhere identifier (Prints (fun _ => True) fun i => [i.token]) := by
  refine spells_identifier_only.weaken ?_
  rintro i ts ⟨t, rfl, ht⟩
  exact ⟨trivial, .cons ht .nil⟩

theorem spells_declarator :
    Spells anywhere declarator (Prints Declarator.WellFormed Declarator.tokens) := by
  unfold declarator
  refine spells_peek fun first => spells_takeDoc first fun doc => ?_
  refine spells_annotations.bind fun as => spells_identifier fun name => ?_
  refine spells_accept_if (by simp) (fun sign hsign => ?_) ?_
  · rw [bind_map_left]
    refine spells_jsonValue.here.bind fun v => ?_
    refine spells_get fun c _ => Spells.pure ?_
    rintro ts ⟨hv, hts⟩ t ht ts₁ ⟨has, hts₁⟩
    refine ⟨⟨has, by simpa using hv⟩, ?_⟩
    simp only [Declarator.tokens, Option.toList_some, List.flatMap_singleton, List.append_nil]
    exact List.rel_append hts₁ (.cons ht (.cons (fits_mark hsign) hts))
  · rw [pure_bind]
    refine spells_get fun c _ => Spells.pure ?_
    rintro t ht ts₁ ⟨has, hts₁⟩
    refine ⟨⟨has, by simp⟩, ?_⟩
    exact List.rel_append hts₁ (.cons ht .nil)

theorem spells_field : Spells anywhere field (Prints FieldDecl.WellFormed FieldDecl.tokens) := by
  unfold field
  refine spells_peek fun first => spells_takeDoc first fun doc => ?_
  refine spells_fullType.bind fun type => (spells_separated spells_declarator).bind fun ds => ?_
  refine spells_expectMark _ fun terminator => Spells.pure ?_
  rintro hterminator ts₂ ⟨⟨hne, hds⟩, hts₂⟩ ts₁ ⟨htype, hts₁⟩
  refine ⟨⟨htype, hne, hds⟩, ?_⟩
  rw [FieldDecl.tokens, List.append_assoc]
  exact List.rel_append hts₁ (List.rel_append hts₂ (.cons hterminator .nil))

/-- With the annotations of the heading before them, the tokens spell a declaration. -/
def PrintsHeaded {α : Type} (h : Heading) (W : α → Prop) (print : α → List Token) (a : α)
    (ts : List Token) : Prop :=
  ∀ front, Prints (fun as => ∀ a ∈ as, a.WellFormed) (·.flatMap Annotation.tokens) h.annotations
    front → Prints W print a (front ++ ts)

section Headed

variable (h : Heading)

theorem spells_record :
    Spells (fun c => c.current.kind = .keyword .record ∨ c.current.kind = .keyword .error)
      (record h) (PrintsHeaded h RecordDecl.WellFormed RecordDecl.tokens) := by
  unfold record
  refine spells_advance (by rintro c (hc | hc) <;> simp [hc]) fun c hc => ?_
  refine spells_identifier fun name => spells_expectMark _ fun opening => ?_
  refine (spells_many spells_field.here).bind fun fs => ?_
  refine spells_expectMark _ fun closing => Spells.pure ?_
  rintro hclosing ts ⟨hfs, hts⟩ hopening t ht front ⟨has, hfront⟩
  refine ⟨⟨has, hfs⟩, ?_⟩
  have hkeyword : Token.Fits (ofKeyword (if c.current.kind == .keyword .error then .error
      else .record)) c.current := by
    obtain hc | hc := hc
    · simpa [hc] using fits_keyword hc
    · simpa [hc] using fits_keyword hc
  rw [RecordDecl.tokens, List.append_assoc]
  refine List.rel_append hfront (.cons hkeyword (.cons ht (.cons hopening ?_)))
  exact List.rel_append hts (.cons hclosing .nil)

theorem spells_enumeration :
    Spells (fun c => c.current.kind = .keyword .enum)
      (enumeration h) (PrintsHeaded h EnumDecl.WellFormed EnumDecl.tokens) := by
  unfold enumeration
  refine spells_advance (fun c hc => by simp [hc]) fun c hc => ?_
  refine spells_identifier fun name => spells_expectMark _ fun opening => ?_
  refine spells_enclosed spells_name fun symbols => ?_
  refine spells_expectMark _ fun closing => spells_accept_if (by simp) (fun sign hsign => ?_) ?_
  · refine spells_identifier fun default => spells_expectMark _ fun terminator => Spells.pure ?_
    rintro hterminator s hs hclosing ts ⟨-, hts⟩ hopening t ht front ⟨has, hfront⟩
    refine ⟨has, ?_⟩
    rw [EnumDecl.tokens, List.append_assoc]
    refine List.rel_append hfront (.cons (fits_keyword hc) (.cons ht (.cons hopening ?_)))
    refine List.rel_append hts (.cons hclosing (.cons (fits_mark hsign) (.cons hs ?_)))
    exact .cons hterminator .nil
  · refine Spells.pure ?_
    rintro hclosing ts ⟨-, hts⟩ hopening t ht front ⟨has, hfront⟩
    refine ⟨has, ?_⟩
    rw [EnumDecl.tokens, List.append_assoc]
    refine List.rel_append hfront (.cons (fits_keyword hc) (.cons ht (.cons hopening ?_)))
    exact List.rel_append hts (.cons hclosing .nil)

theorem spells_fixed :
    Spells (fun c => c.current.kind = .keyword .fixed)
      (fixed h) (PrintsHeaded h FixedDecl.WellFormed FixedDecl.tokens) := by
  unfold fixed
  refine spells_advance (fun c hc => by simp [hc]) fun c hc => ?_
  refine spells_identifier fun name => spells_expectMark _ fun opening => ?_
  refine spells_expect (by simp) fun size => spells_expectMark _ fun closing => ?_
  refine spells_expectMark _ fun terminator => Spells.pure ?_
  rintro hterminator hclosing hsize hopening t ht front ⟨has, hfront⟩
  refine ⟨has, List.rel_append hfront (.cons (fits_keyword hc) (.cons ht (.cons hopening ?_)))⟩
  exact .cons (fits_literal hsize) (.cons hclosing (.cons hterminator .nil))

theorem spells_parameter :
    Spells anywhere parameter (Prints Parameter.WellFormed Parameter.tokens) := by
  unfold parameter
  refine spells_peek fun first => spells_takeDoc first fun doc => ?_
  refine spells_fullType.bind fun type => spells_declarator.bind fun d => Spells.pure ?_
  rintro ts₂ ⟨hd, hts₂⟩ ts₁ ⟨htype, hts₁⟩
  refine ⟨⟨htype, hd.annotations, hd.default⟩, ?_⟩
  rw [Parameter.tokens, List.append_nil]
  exact List.rel_append hts₁ hts₂

theorem spells_resultType :
    Spells anywhere resultType (Prints ResultType.WellFormed ResultType.tokens) := by
  unfold resultType
  refine spells_isAt ?_ (spells_peek fun first => ?_)
  · refine spells_advance (fun c hc => by simp [kind_of_isAt hc.2]) fun c hc => Spells.pure ?_
    exact ⟨trivial, .cons (fits_keyword (kind_of_isAt hc.2)) .nil⟩
  · refine (spells_plainType _ [] _).here.bind fun t => ?_
    refine Spells.pure ?_
    rintro ts ⟨hnone, hwithin, hts⟩
    refine ⟨⟨hnone, (hwithin (by simp)).within⟩, ?_⟩
    rw [ResultType.tokens, TypeNode.tokens, hnone, List.append_nil]
    exact hts

theorem spells_thrown :
    Spells anywhere thrown (Prints (· ≠ some []) fun errors => errors.toList.flatMap fun es =>
      ofKeyword .throws :: commas (es.map fun e => [e.token])) := by
  unfold thrown
  refine spells_accept_if (by simp) (fun t ht => ?_) (Spells.pure ⟨by simp, .nil⟩)
  refine ((spells_separated spells_name).weaken ?_).map
  rintro es ts ⟨⟨hne, -⟩, hts⟩
  refine ⟨by simpa using hne, ?_⟩
  simp only [Option.toList_some, List.flatMap_singleton]
  exact .cons (fits_keyword ht) hts

theorem spells_message :
    Spells anywhere (message h) (PrintsHeaded h MessageDecl.WellFormed MessageDecl.tokens) := by
  unfold message
  refine spells_resultType.bind fun result => spells_identifier fun name => ?_
  refine spells_expectMark _ fun opening => spells_enclosed spells_parameter fun ps => ?_
  refine spells_expectMark _ fun closing => spells_accept (by simp) (fun way hway => ?_) ?_
  · simp only [if_true, pure_bind]
    refine spells_expectMark _ fun terminator => Spells.pure ?_
    rintro hterminator hclosing ts₂ ⟨hps, hts₂⟩ hopening t ht ts₁ ⟨hresult, hts₁⟩ front
      ⟨has, hfront⟩
    refine ⟨⟨has, hresult, hps, fun _ => rfl, by simp⟩, ?_⟩
    simp only [MessageDecl.tokens, List.append_assoc]
    refine List.rel_append hfront (List.rel_append hts₁ (.cons ht (.cons hopening ?_)))
    refine List.rel_append hts₂ (.cons hclosing (.cons (fits_keyword hway) ?_))
    exact .cons hterminator .nil
  · simp only [Bool.false_eq_true, if_false]
    refine spells_thrown.here.bind fun errors => spells_expectMark _ fun terminator => ?_
    refine Spells.pure ?_
    rintro hterminator ts₃ ⟨herrors, hts₃⟩ hclosing ts₂ ⟨hps, hts₂⟩ hopening t ht ts₁
      ⟨hresult, hts₁⟩ front ⟨has, hfront⟩
    refine ⟨⟨has, hresult, hps, by simp, herrors⟩, ?_⟩
    simp only [MessageDecl.tokens, List.append_assoc, Bool.false_eq_true, if_false,
      List.cons_append, List.nil_append]
    refine List.rel_append hfront (List.rel_append hts₁ (.cons ht (.cons hopening ?_)))
    refine List.rel_append hts₂ (.cons hclosing ?_)
    exact List.rel_append hts₃ (.cons hterminator .nil)

end Headed

theorem spells_importDecl :
    Spells (fun c => c.current.kind = .keyword .importFrom) importDecl
      (Prints (fun _ => True) ImportDecl.tokens) := by
  unfold importDecl
  refine spells_advance (fun c hc => by simp [hc]) fun c hc => ?_
  have hrest (kind : ImportKind) (t : Token) (ht : t.kind = .keyword kind.keyword)
      (pre : Cursor → Prop) : Spells pre (do
        let location ← expect .string
        let terminator ← expectMark .semicolon
        pure ⟨kind, location.text, c.current.span.to terminator.span⟩ : Reader ImportDecl)
      (fun d ts => Prints (fun _ => True) ImportDecl.tokens d (c.current :: t :: ts)) := by
    refine spells_expect (by simp) fun location => spells_expectMark _ fun terminator => ?_
    refine Spells.pure fun hterminator hlocation => ⟨trivial, ?_⟩
    refine .cons (fits_keyword hc) (.cons (fits_keyword ht) (.cons (fits_literal hlocation) ?_))
    exact .cons hterminator .nil
  refine spells_accept_if (by simp) (fun t ht => hrest .idl t ht _) ?_
  refine spells_accept_if (by simp) (fun t ht => hrest .protocol t ht _) ?_
  refine spells_accept_if (by simp) (fun t ht => hrest .schema t ht _) ?_
  exact spells_fail fun c => .mismatch c.current _

/-- There is a declaration, it is well formed, and it is a message only where one is allowed. -/
def IsDeclaration (allowMessages : Bool) (o : Option Declaration) : Prop :=
  ∃ d, o = some d ∧ d.WellFormed ∧ (d.isMessage = true → allowMessages = true)

def optionalTokens (o : Option Declaration) : List Token := o.toList.flatMap Declaration.tokens

section Made

variable {α : Type} {W : α → Prop} {print : α → List Token} {allowMessages : Bool}

theorem prints_declaration {g : α → Declaration} (hprint : ∀ a, (g a).tokens = print a)
    (hwell : ∀ a, W a → (g a).WellFormed)
    (hmessage : ∀ a, (g a).isMessage = true → allowMessages = true) {a : α} {ts : List Token}
    (h : Prints W print a ts) :
    Prints (IsDeclaration allowMessages) optionalTokens (some (g a)) ts := by
  refine ⟨⟨g a, rfl, hwell a h.1, hmessage a⟩, ?_⟩
  rw [optionalTokens, Option.toList_some, List.flatMap_singleton, hprint]
  exact h.2

/-- The annotations were read before the declaration. -/
theorem spells_headed {pre pre' : Cursor → Prop} {x : Reader α} {g : α → Declaration} {h : Heading}
    (hprint : ∀ a, (g a).tokens = print a) (hwell : ∀ a, W a → (g a).WellFormed)
    (hmessage : ∀ a, (g a).isMessage = true → allowMessages = true)
    (hx : Spells pre x (PrintsHeaded h W print)) (hpre : ∀ c, pre' c → pre c) :
    Spells pre' (x >>= fun a => pure (some (g a))) fun o ts => ∀ ts₁,
      Prints (fun as => ∀ a ∈ as, a.WellFormed) (·.flatMap Annotation.tokens) h.annotations ts₁ →
        Prints (IsDeclaration allowMessages) optionalTokens o (ts₁ ++ ts) := by
  refine (hx.mono hpre fun _ _ h => h).bind fun a => Spells.pure fun ts hts ts₁ hts₁ => ?_
  rw [List.append_nil]
  exact prints_declaration hprint hwell hmessage (hts ts₁ hts₁)

end Made

theorem spells_declaration (allowMessages : Bool) :
    Spells anywhere (declaration allowMessages)
      (Prints (IsDeclaration allowMessages) optionalTokens) := by
  unfold declaration
  refine spells_peek fun first => spells_isAt ?_ (spells_takeDoc first fun doc => ?_)
  · refine (spells_importDecl.mono (fun c hc => kind_of_isAt hc.2) fun _ _ h => h).bind fun d => ?_
    refine Spells.pure fun ts h => ?_
    rw [List.append_nil]
    exact prints_declaration (g := .file) (fun _ => rfl) (fun _ _ => trivial) nofun h
  refine spells_annotations.bind fun as => spells_get fun c _ => ?_
  split
  · refine spells_failed ?_
    rintro _ rfl hnone
    simp_all
  split
  · rename_i hkind
    refine spells_headed (h := ⟨as, doc, first⟩) (fun _ => rfl) (fun _ h => h) nofun
      (spells_record _) ?_
    rintro _ rfl
    exact .inl hkind
  · rename_i hkind
    refine spells_headed (h := ⟨as, doc, first⟩) (fun _ => rfl) (fun _ h => h) nofun
      (spells_record _) ?_
    rintro _ rfl
    exact .inr hkind
  · rename_i hkind
    refine spells_headed (h := ⟨as, doc, first⟩) (fun _ => rfl) (fun _ h => h) nofun
      (spells_enumeration _) ?_
    rintro _ rfl
    exact hkind
  · rename_i hkind
    refine spells_headed (h := ⟨as, doc, first⟩) (fun _ => rfl) (fun _ h => h) nofun
      (spells_fixed _) ?_
    rintro _ rfl
    exact hkind
  · split
    · rename_i hallow
      exact spells_headed (h := ⟨as, doc, first⟩) (fun _ => rfl) (fun _ h => h)
        (fun _ _ => hallow) (spells_message _) fun _ _ => trivial
    · exact spells_fail fun c => .mismatch c.current _

/-- Declarations that were all read. -/
theorem prints_declarations {allowMessages : Bool} {os : List (Option Declaration)}
    {ts : List Token}
    (h : Prints (fun os => ∀ o ∈ os, IsDeclaration allowMessages o) (·.flatMap optionalTokens) os
      ts) :
    Prints (fun ds => ∀ d ∈ ds, d.WellFormed ∧ (d.isMessage = true → allowMessages = true))
      (·.flatMap Declaration.tokens) (os.filterMap id) ts := by
  obtain ⟨hos, hts⟩ := h
  refine ⟨?_, ?_⟩
  · intro d hd
    obtain ⟨o, ho, rfl⟩ := List.mem_filterMap.mp hd
    obtain ⟨e, he, hwell⟩ := hos _ ho
    obtain rfl := Option.some.inj he
    exact hwell
  · have hprint : (os.filterMap id).flatMap Declaration.tokens = os.flatMap optionalTokens := by
      clear hos hts
      induction os with
      | nil => rfl
      | cons o os ih => cases o <;> simp_all [optionalTokens]
    simp only [hprint]
    exact hts

theorem spells_protocol (h : Heading) :
    Spells anywhere (protocol h)
      (PrintsHeaded h SourceUnit.Body.WellFormed SourceUnit.Body.tokens) := by
  unfold protocol
  refine spells_expect (by simp) fun keyword => spells_identifier fun name => ?_
  refine spells_expectMark _ fun opening => ?_
  refine (spells_many (spells_declaration true).here).bind fun os => ?_
  refine spells_expectMark _ fun closing => Spells.pure ?_
  rintro hclosing ts hts hopening t ht hkeyword front ⟨has, hfront⟩
  obtain ⟨hbody, hts⟩ := prints_declarations hts
  refine ⟨⟨has, fun x hx => (hbody x hx).1⟩, ?_⟩
  simp only [SourceUnit.Body.tokens, ProtocolDecl.tokens, List.append_assoc]
  refine List.rel_append hfront (.cons (fits_keyword hkeyword) (.cons ht (.cons hopening ?_)))
  exact List.rel_append hts (.cons hclosing .nil)

section Stages

variable {β : Type} {Q : β → List Token → Prop} {pre : Cursor → Prop}

theorem spells_space {g : Option Identifier → Reader β}
    (hg : ∀ s, Spells anywhere (g s) fun b ts => ∀ front,
      List.Forall₂ Token.Fits (s.toList.flatMap fun i =>
        [ofKeyword .nameSpace, i.token, ofMark .semicolon]) front → Q b (front ++ ts)) :
    Spells pre (do
        let b ← accept (.keyword .nameSpace)
        if b = true then
          let i ← identifier
          let _ ← expectMark .semicolon
          let s ← pure (some i)
          g s
        else
          let s ← pure none
          g s) Q := by
  refine spells_accept_if (by simp) (fun t ht => ?_) ?_
  · refine spells_identifier fun i => spells_expectMark _ fun terminator => ?_
    rw [pure_bind]
    refine (hg (some i)).mono (fun _ _ => trivial) fun b ts h hterminator name hname => ?_
    exact h [t, name, terminator] (.cons (fits_keyword ht) (.cons hname (.cons hterminator .nil)))
  · rw [pure_bind]
    exact (hg none).mono (fun _ _ => trivial) fun b ts h => h [] .nil

theorem spells_mainSchema {g : Option TypeNode → Reader β}
    (hg : ∀ m, Spells anywhere (g m) fun b ts => ∀ front,
      Prints (fun m => ∀ t ∈ m, t.WellFormed) (fun m => m.toList.flatMap fun t =>
        ofKeyword .schema :: t.tokens ++ [ofMark .semicolon]) m front → Q b (front ++ ts)) :
    Spells pre (do
        let b ← accept (.keyword .schema)
        if b = true then
          let t ← fullType
          let _ ← expectMark .semicolon
          let m ← pure (some t)
          g m
        else
          let m ← pure none
          g m) Q := by
  refine spells_accept_if (by simp) (fun t ht => ?_) ?_
  · refine spells_fullType.here.bind fun u => ?_
    refine spells_expectMark _ fun terminator => ?_
    rw [pure_bind]
    refine (hg (some u)).mono (fun _ _ => trivial) ?_
    rintro b ts h hterminator us ⟨hu, hus⟩
    have hfront : List.Forall₂ Token.Fits (ofKeyword .schema :: (u.tokens ++ [ofMark .semicolon]))
        (t :: (us ++ [terminator])) :=
      .cons (fits_keyword ht) (List.rel_append hus (.cons hterminator .nil))
    simpa using h (t :: (us ++ [terminator])) ⟨by simpa using hu, by simpa using hfront⟩
  · rw [pure_bind]
    exact (hg none).mono (fun _ _ => trivial) fun b ts h => h [] ⟨by simp, .nil⟩

end Stages

theorem spells_schemas {pre : Cursor → Prop} :
    Spells pre schemas (Prints SourceUnit.Body.WellFormed SourceUnit.Body.tokens) := by
  unfold schemas
  refine spells_space fun space => spells_mainSchema fun main => ?_
  refine (spells_many (spells_declaration false).here).bind fun os => Spells.pure ?_
  rintro ts hts ts₂ ⟨hmain, hts₂⟩ ts₁ hts₁
  obtain ⟨hbody, hts⟩ := prints_declarations hts
  refine ⟨⟨hmain, fun x hx => ⟨(hbody x hx).1, by simpa using (hbody x hx).2⟩⟩, ?_⟩
  rw [SourceUnit.Body.tokens, List.append_assoc, List.append_nil]
  exact List.rel_append hts₁ (List.rel_append hts₂ hts)

end Declarations

section Units

variable {α β : Type}

/-- What was read ahead counts only if a token of the kind follows it. -/
theorem spells_again {pre : Cursor → Prop} {x : Reader α} {y z : Reader β}
    {w : Token → α → Reader β} {P : α → List Token → Prop} {Q : β → List Token → Prop}
    {k : Token.Kind} (hx : Spells pre x P) (hy : Spells (·.failure ≠ none) y Q)
    (hw : ∀ first a, Spells anywhere (w first a) fun b ts => ∀ ts₁, P a ts₁ → Q b (ts₁ ++ ts))
    (hz : Spells pre z Q) :
    Spells pre (do
        let start ← get
        let first ← peek
        let a ← x
        let c ← get
        if c.failure.isSome = true then y
        else do
          let b ← isAt k
          if b = true then w first a
          else do
            set start
            z) Q := by
  intro c hc
  rw [again_run]
  split
  · rename_i hfailed
    have hfailed : (x.run c).2.failure ≠ none := Option.isSome_iff_ne_none.mp hfailed
    exact fun hend => absurd (hy _ hfailed hend).1 hfailed
  split
  · exact hx.bind (hw c.current) c hc
  · exact hz c hc

theorem spells_conclude {b : SourceUnit.Body} {Q : SourceUnit → List Token → Prop}
    (h : ∀ orphans, Q ⟨b, orphans⟩ []) : Spells anywhere (conclude b) Q := by
  refine spells_get fun c _ => ?_
  split
  · exact spells_fail fun c => .mismatch c.current _
  · exact Spells.pure (h _)

theorem spells_sourceUnit :
    Spells anywhere sourceUnit (Prints SourceUnit.WellFormed fun u => u.body.tokens) := by
  rw [sourceUnit_eq]
  refine spells_again spells_annotations (spells_failed fun c h => h) (fun first as => ?_) ?_
  · refine spells_takeDoc first fun doc => ?_
    refine (spells_protocol ⟨as, doc, first⟩).bind fun b => spells_conclude ?_
    intro orphans ts hts front hfront
    rw [List.append_nil]
    exact hts front hfront
  · refine spells_schemas.bind fun b => spells_conclude ?_
    rintro orphans ts hts
    rw [List.append_nil]
    exact hts

theorem atEnd_conclude {b : SourceUnit.Body} {c : Cursor}
    (h : ((conclude b).run c).2.failure = none) : ((conclude b).run c).2.atEnd = true := by
  unfold conclude at h ⊢
  simp only [StateT.run_bind, StateT.run_get, pure_bind] at h ⊢
  split at h
  · exact absurd h (failure_fail_ne_none c _)
  · rename_i hcondition
    have hfailure : c.failure = none := h
    rw [if_neg hcondition]
    change c.atEnd = true
    simpa [hfailure] using hcondition

/-- A whole source is read to the end of the file. -/
theorem atEnd_sourceUnit {c : Cursor} (h : (sourceUnit.run c).2.failure = none) :
    (sourceUnit.run c).2.atEnd = true := by
  rw [sourceUnit_eq, again_run] at h ⊢
  split at h
  · rename_i hfailed
    exact absurd h (Option.isSome_iff_ne_none.mp hfailed)
  rename_i hgood
  rw [if_neg hgood]
  split at h
  · rename_i hprotocol
    rw [if_pos hprotocol]
    exact atEnd_conclude h
  · rename_i hother
    rw [if_neg hother]
    exact atEnd_conclude h

end Units

end Reader

namespace SourceUnit

/-- The only end of the file is the last token, so what was passed before it is all the rest. -/
theorem eq_front_of_atEnd {front ts rest : List Token} {last : Token}
    (hlast : last.kind = .endOfFile) (hfront : ∀ t ∈ front, t.kind ≠ .endOfFile)
    (hts : ∀ t ∈ ts, t.kind ≠ .endOfFile) (hrest : (rest.headD {}).kind = .endOfFile)
    (h : front ++ [last] = ts ++ rest) : ts = front := by
  induction ts generalizing front with
  | nil =>
    cases front with
    | nil => rfl
    | cons t front =>
      rw [← show (t :: front) ++ [last] = rest from h] at hrest
      exact absurd hrest (hfront t (by simp))
  | cons s ts ih =>
    cases front with
    | nil =>
      obtain ⟨rfl, -⟩ := List.cons.inj h
      exact absurd hlast (hts last (by simp))
    | cons t front =>
      obtain ⟨rfl, hrests⟩ := List.cons.inj h
      rw [ih (fun u hu => hfront u (List.mem_cons_of_mem _ hu))
        (fun u hu => hts u (List.mem_cons_of_mem _ hu)) hrests]

/-- The reading of tokens starts at the first one. -/
theorem exists_run (front : List Token) (last : Token) (docs : List DocComment) :
    ∃ c : Cursor, c.rest = front ++ [last] ∧ c.failure = none ∧
      ofTokens (front ++ [last]) docs =
        ((Reader.sourceUnit.run c).1, (Reader.sourceUnit.run c).2.failure) := by
  cases hts : front ++ [last] with
  | nil => simp at hts
  | cons first rest =>
    exact ⟨{ docs := docs, previous := first, rest := first :: rest }, rfl, rfl, rfl⟩

/-- A source that is read without a problem is well formed, and the tokens are those that are
printed for it, apart from names that are spelt like keywords. -/
theorem fits_of_ofTokens {front : List Token} {last : Token} {docs : List DocComment}
    {u : SourceUnit} (hlast : last.kind = .endOfFile) (hfront : ∀ t ∈ front, t.kind ≠ .endOfFile)
    (h : ofTokens (front ++ [last]) docs = (u, none)) :
    u.WellFormed ∧ List.Forall₂ Token.Fits u.tokens (front ++ [last]) := by
  obtain ⟨c, hc, -, hrun⟩ := exists_run front last docs
  obtain ⟨hunit, hend⟩ := Prod.mk.inj (hrun.symm.trans h)
  obtain ⟨-, ts, hrest, hkinds, hu, hfits⟩ := Reader.spells_sourceUnit c trivial hend
  rw [hunit] at hu hfits
  have hat : ((Reader.sourceUnit.run c).2.rest.headD {}).kind = .endOfFile :=
    beq_iff_eq.mp (Reader.atEnd_sourceUnit hend)
  obtain rfl := eq_front_of_atEnd hlast hfront hkinds hat (hc.symm.trans hrest)
  exact ⟨hu, List.rel_append hfits (.cons ⟨.inl hlast, nofun⟩ .nil)⟩

end SourceUnit

end AvroIdl
