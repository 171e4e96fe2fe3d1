import AvroIdl.Proofs.Spelling

/-!
# Values and types that are read were spelt

The JSON values, annotations and types that the readers give without a failure are well formed, and
their printed tokens fit those that were passed.
-/
namespace AvroIdl

open Token (ofMark ofKeyword)

namespace Reader

section Levels

variable {α β : Type} {W : Nat → α → Prop} {levels : Nat}

/-- What a reader with this many levels can give, if `W` tells what nests within a number of them:
with none left it always fails. -/
def Inside (W : Nat → α → Prop) (levels : Nat) (a : α) : Prop := ∃ n, levels = n + 1 ∧ W n a

theorem Inside.within {a : α} (h : Inside W (levels + 1) a) : W levels a := by
  obtain ⟨n, hn, ha⟩ := h
  obtain rfl : levels = n := by omega
  exact ha

theorem inside_parts {parts : List β} {value : β → α}
    (h : ∀ p ∈ parts, Inside W levels (value p)) :
    levels = 0 ∧ parts = [] ∨ ∃ n, levels = n + 1 ∧ ∀ p ∈ parts, W n (value p) := by
  cases levels with
  | zero =>
    refine .inl ⟨rfl, List.eq_nil_iff_forall_not_mem.mpr fun p hp => ?_⟩
    obtain ⟨n, hn, -⟩ := h p hp
    omega
  | succ n => exact .inr ⟨n, rfl, fun p hp => (h p hp).within⟩

end Levels

section Json

variable {levels : Nat}

theorem inside_object {members : List (Text × Span × JsonNode)} {span : Span}
    (h : ∀ m ∈ members, Inside JsonNode.Within levels m.2.2) :
    Inside JsonNode.Within (levels + 1) (JsonNode.object members span) := by
  refine ⟨levels, rfl, ?_⟩
  obtain ⟨rfl, rfl⟩ | ⟨n, rfl, hmembers⟩ := inside_parts h
  · rw [JsonNode.Within]
  · rwa [JsonNode.Within]

theorem inside_array {elements : List JsonNode} {span : Span}
    (h : ∀ v ∈ elements, Inside JsonNode.Within levels v) :
    Inside JsonNode.Within (levels + 1) (JsonNode.array elements span) := by
  refine ⟨levels, rfl, ?_⟩
  obtain ⟨rfl, rfl⟩ | ⟨n, rfl, helements⟩ := inside_parts h
  · rw [JsonNode.Within]
  · rwa [JsonNode.Within]

/-- A literal keeps the text of its token. -/
theorem prints_literal {kind : JsonNode.Scalar} {t : Token} {span : Span}
    (hk : t.kind = kind.kind) (hkeeps : kind.kind.keepsText = true) :
    Prints (Inside JsonNode.Within (levels + 1)) JsonNode.tokens (.scalar kind t.text span)
      [t] := by
  refine ⟨⟨levels, rfl, by simp [JsonNode.Within, hkeeps]⟩, ?_⟩
  rw [JsonNode.tokens]
  exact .cons (fits_literal hk) .nil

theorem spells_literal {kind : JsonNode.Scalar} {t first : Token} (hk : t.kind = kind.kind)
    (hkeeps : kind.kind.keepsText = true) :
    Spells (·.previous = t) (do
        let c ← get
        let d ← get
        pure (.scalar kind c.previous.text (first.span.to d.previous.span)))
      fun v ts => Prints (Inside JsonNode.Within (levels + 1)) JsonNode.tokens v (t :: ts) := by
  refine spells_get fun c hc => spells_get fun d _ => Spells.pure ?_
  rw [hc]
  exact prints_literal hk hkeeps

theorem prints_word {kind : JsonNode.Scalar} {t : Token} {span : Span} (hk : t.kind = kind.kind)
    (hkeeps : kind.kind.keepsText = false) :
    Prints (Inside JsonNode.Within (levels + 1)) JsonNode.tokens (.scalar kind [] span) [t] := by
  refine ⟨⟨levels, rfl, by simp [JsonNode.Within]⟩, ?_⟩
  rw [JsonNode.tokens]
  exact .cons ⟨.inl hk, fun h => by simp [hkeeps] at h⟩ .nil

theorem spells_json (levels : Nat) :
    Spells anywhere (json levels) (Prints (Inside JsonNode.Within levels) JsonNode.tokens) := by
  induction levels with
  | zero => exact spells_fail fun _ => .deepJson
  | succ levels ih =>
    have hmember : Spells anywhere (do
          let key ← expect .string
          let _ ← expectMark .colon
          let w ← json levels
          pure (key.text, key.span, w))
        (Prints (fun m => Inside JsonNode.Within levels m.2.2) JsonNode.memberToken) := by
      refine spells_expect (by simp) fun key => spells_expectMark _ fun t => ?_
      refine ih.bind fun w => Spells.pure ?_
      rintro ts ⟨hw, hts⟩ ht hkey
      refine ⟨hw, .cons (fits_literal hkey) (.cons ht ?_)⟩
      simpa using hts
    unfold json
    refine spells_peek fun first => spells_accept_if (by simp) (fun t ht => ?_) ?_
    · refine spells_enclosed hmember fun ms => ?_
      refine spells_expectMark _ fun closing => spells_get fun c _ => Spells.pure ?_
      rintro hclosing ts ⟨hms, hts⟩
      refine ⟨inside_object hms, ?_⟩
      rw [JsonNode.tokens, JsonNode.memberTokens_eq_map]
      exact .cons (fits_mark ht) (List.rel_append hts (.cons hclosing .nil))
    refine spells_accept_if (by simp) (fun t ht => ?_) ?_
    · refine spells_enclosed ih fun vs => ?_
      refine spells_expectMark _ fun closing => spells_get fun c _ => Spells.pure ?_
      rintro hclosing ts ⟨hvs, hts⟩
      refine ⟨inside_array hvs, ?_⟩
      rw [JsonNode.tokens, JsonNode.elementTokens_eq_map]
      exact .cons (fits_mark ht) (List.rel_append hts (.cons hclosing .nil))
    refine spells_accept_if (by simp) (fun t ht => ?_) ?_
    · exact spells_literal ht rfl
    refine spells_accept_if (by simp) (fun t ht => ?_) ?_
    · exact spells_literal ht rfl
    refine spells_accept_if (by simp) (fun t ht => ?_) ?_
    · exact spells_literal ht rfl
    refine spells_accept_if (by simp) (fun t ht => ?_) ?_
    · exact spells_get fun _ _ => Spells.pure (prints_word ht rfl)
    refine spells_accept_if (by simp) (fun t ht => ?_) ?_
    · exact spells_get fun _ _ => Spells.pure (prints_word ht rfl)
    refine spells_accept_if (by simp) (fun t ht => ?_) ?_
    · exact spells_get fun _ _ => Spells.pure (prints_word ht rfl)
    exact spells_fail fun c => .mismatch c.current _

theorem spells_jsonValue :
    Spells anywhere jsonValue (Prints (JsonNode.Within maxNesting) JsonNode.tokens) := by
  refine (spells_json _).weaken ?_
  exact fun v ts h => ⟨h.1.within, h.2⟩

end Json

theorem spells_annotation :
    Spells (fun c => c.isAt (.mark .at) = true) annotation
      (Prints Annotation.WellFormed Annotation.tokens) := by
  unfold annotation
  refine spells_advance (fun c hc => by simp [kind_of_isAt hc]) fun c hc => ?_
  refine spells_identifier fun name => spells_expectMark _ fun opening => ?_
  refine spells_jsonValue.bind fun v => spells_expectMark _ fun closing => Spells.pure ?_
  rintro hclosing ts ⟨hv, hts⟩ hopening t ht
  refine ⟨hv, .cons (fits_mark (kind_of_isAt hc)) (.cons ⟨ht.kind, ht.text⟩ (.cons hopening ?_))⟩
  exact List.rel_append hts (.cons hclosing .nil)

theorem spells_annotations {pre : Cursor → Prop} :
    Spells pre annotations
      (Prints (fun as => ∀ a ∈ as, a.WellFormed) (·.flatMap Annotation.tokens)) :=
  spells_many spells_annotation

section Types

variable {levels : Nat}

/-- The tokens spell a type that has the annotations, apart from them. -/
structure PrintsPlain (levels : Nat) (as : List Annotation) (t : TypeNode) (ts : List Token) :
    Prop where
  annotations : t.annotations = as
  within : (∀ a ∈ as, a.WellFormed) → Inside TypeNode.Within levels t
  fits : List.Forall₂ Token.Fits t.plainTokens ts

theorem within_union {branches : List TypeNode} {m : TypeMark}
    (has : ∀ a ∈ m.annotations, a.WellFormed) (hne : branches ≠ [])
    (h : ∀ t ∈ branches, Inside TypeNode.Within levels t) (hm : m.isOptional = false) :
    (TypeNode.union branches m).Within levels := by
  obtain ⟨-, hnil⟩ | ⟨n, rfl, hbranches⟩ := inside_parts h
  · exact absurd hnil hne
  · exact ⟨has, hm, hne, hbranches⟩

theorem spells_annotated
    (h : ∀ as start, Spells anywhere (plainType levels as start) (PrintsPlain levels as)) :
    Spells anywhere (do
        let first ← peek
        let as ← annotations
        plainType levels as first.span)
      (Prints (Inside TypeNode.Within levels) TypeNode.tokens) := by
  refine spells_peek fun first => spells_annotations.bind fun as => (h as _).weaken ?_
  rintro t ts ⟨rfl, hwithin, hts⟩ ts₁ ⟨has, hts₁⟩
  exact ⟨hwithin has, List.rel_append hts₁ hts⟩

theorem spells_question {β : Type} {pre : Cursor → Prop} {f : Bool → Reader β}
    {Q : β → List Token → Prop}
    (h : ∀ b, Spells anywhere (f b) fun r ts => ∀ qs,
      List.Forall₂ Token.Fits (if b then [ofMark .question] else []) qs → Q r (qs ++ ts)) :
    Spells pre (accept (.mark .question) >>= f) Q := by
  refine spells_accept (by simp) (fun t ht => ?_) ?_
  · refine (h true).mono (fun _ _ => trivial) fun r ts hr => ?_
    exact hr [t] (.cons (fits_mark ht) .nil)
  · exact (h false).mono (fun _ _ => trivial) fun r ts hr => hr [] .nil

theorem kind_of_primitive {c : Cursor} {k : Keyword} (h : c.primitive? = some k) :
    c.failure = none ∧ c.current.kind = .keyword k ∧ k.isType = true := by
  unfold Cursor.primitive? at h
  split at h
  · rename_i hfailure hkind
    split at h
    · obtain rfl := Option.some.inj h
      exact ⟨hfailure, hkind, ‹_›⟩
    · simp at h
  · simp at h

theorem spells_marked {β : Type} {pre : Cursor → Prop} {f : TypeMark → Reader β}
    {Q : β → List Token → Prop} {as : List Annotation} {isOptional : Bool} {start : Span}
    (h : ∀ span, Spells anywhere (f ⟨as, isOptional, span⟩) Q) :
    Spells pre ((do
        let c ← get
        pure ⟨as, isOptional, start.to c.previous.span⟩ : Reader TypeMark) >>= f) Q :=
  fun c _ hend => h _ c trivial hend

/-- Arrays and maps. -/
theorem spells_container {pre : Cursor → Prop} {g : TypeNode → TypeMark → TypeNode}
    {element : Reader TypeNode} {k : Keyword} {t : Token} {as : List Annotation} {start : Span}
    (hmark : ∀ u m, (g u m).annotations = m.annotations)
    (hprint : ∀ u m, (g u m).plainTokens =
      ofKeyword k :: ofMark .lessThan :: (u.tokens ++ [ofMark .greaterThan]))
    (hwithin : ∀ u m n, (∀ a ∈ m.annotations, a.WellFormed) → m.isOptional = false →
      u.Within n → (g u m).Within (n + 1))
    (ht : t.kind = .keyword k)
    (hpart : Spells anywhere element (Prints (Inside TypeNode.Within levels) TypeNode.tokens)) :
    Spells pre (do
        let _ ← expectMark .lessThan
        let u ← element
        let _ ← expectMark .greaterThan
        let m ← (do
          let c ← get
          pure ⟨as, false, start.to c.previous.span⟩ : Reader TypeMark)
        pure (g u m))
      fun v ts => PrintsPlain (levels + 1) as v (t :: ts) := by
  refine spells_expectMark _ fun opening => hpart.bind fun u => ?_
  refine spells_expectMark _ fun closing => spells_marked fun span => Spells.pure ?_
  rintro hclosing ts ⟨⟨n, rfl, hu⟩, hts⟩ hopening
  refine ⟨hmark _ _, fun has => ⟨_, rfl, hwithin _ _ _ has rfl hu⟩, ?_⟩
  rw [hprint]
  exact .cons (fits_keyword ht) (.cons hopening (List.rel_append hts (.cons hclosing .nil)))

theorem spells_plainType (levels : Nat) (as : List Annotation) (start : Span) :
    Spells anywhere (plainType levels as start) (PrintsPlain levels as) := by
  induction levels generalizing as start with
  | zero => exact spells_fail fun _ => .deepType
  | succ levels ih =>
    have hpart := spells_annotated ih
    unfold plainType
    refine spells_accept_if (by simp) (fun t ht => ?_) ?_
    · exact spells_container (fun _ _ => rfl) (fun _ _ => by rw [TypeNode.plainTokens]; rfl)
        (fun _ _ _ has hm hu => ⟨has, hm, hu⟩) ht hpart
    refine spells_accept_if (by simp) (fun t ht => ?_) ?_
    · exact spells_container (fun _ _ => rfl) (fun _ _ => by rw [TypeNode.plainTokens]; rfl)
        (fun _ _ _ has hm hu => ⟨has, hm, hu⟩) ht hpart
    refine spells_accept_if (by simp) (fun t ht => ?_) ?_
    · refine spells_expectMark _ fun opening => (spells_separated hpart).bind fun us => ?_
      refine spells_expectMark _ fun closing => spells_marked fun span => Spells.pure ?_
      rintro hclosing ts ⟨⟨hne, hus⟩, hts⟩ hopening
      refine ⟨rfl, fun has => ⟨_, rfl, within_union has hne hus rfl⟩, ?_⟩
      rw [TypeNode.plainTokens, TypeNode.branchTokens_eq_map]
      exact .cons (fits_keyword ht) (.cons hopening (List.rel_append hts (.cons hclosing .nil)))
    refine spells_accept_if (by simp) (fun t ht => ?_) ?_
    · refine spells_expectMark _ fun opening => spells_expect (by simp) fun precision => ?_
      refine spells_accept_if (by simp) (fun comma hcomma => ?_) ?_
      · rw [bind_map_left]
        refine spells_expect (by simp) fun scale => spells_expectMark _ fun closing => ?_
        refine spells_question fun isOptional => spells_marked fun span => Spells.pure ?_
        intro qs hqs hclosing hscale hprecision hopening
        refine ⟨rfl, fun has => ⟨_, rfl, by rwa [TypeNode.Within]⟩, ?_⟩
        rw [TypeNode.plainTokens, List.append_nil]
        refine .cons (fits_keyword ht) (.cons hopening (.cons (fits_literal hprecision) ?_))
        exact .cons (fits_mark hcomma) (.cons (fits_literal hscale) (.cons hclosing hqs))
      · rw [pure_bind]
        refine spells_expectMark _ fun closing => ?_
        refine spells_question fun isOptional => spells_marked fun span => Spells.pure ?_
        intro qs hqs hclosing hprecision hopening
        refine ⟨rfl, fun has => ⟨_, rfl, by rwa [TypeNode.Within]⟩, ?_⟩
        rw [TypeNode.plainTokens, List.append_nil]
        refine .cons (fits_keyword ht) (.cons hopening (.cons (fits_literal hprecision) ?_))
        exact .cons hclosing hqs
    refine spells_get fun c hc => ?_
    split
    · rename_i k hk
      obtain ⟨hfailure, hkind, htype⟩ := kind_of_primitive hk
      -- a decimal type was tried before
      have hdecimal : k ≠ .decimal := by
        rintro rfl
        simp [Cursor.isAt, hfailure, hkind] at hc
      refine spells_advance (by rintro _ rfl; simp [hkind]) ?_
      rintro _ rfl
      refine spells_question fun isOptional => spells_marked fun span => Spells.pure ?_
      intro qs hqs
      refine ⟨rfl, fun has => ⟨_, rfl, by rw [TypeNode.Within]; exact ⟨has, htype, hdecimal⟩⟩, ?_⟩
      rw [TypeNode.plainTokens, List.append_nil]
      exact .cons (fits_keyword hkind) hqs
    · split
      · refine spells_identifier fun name => ?_
        refine spells_question fun isOptional => spells_marked fun span => Spells.pure ?_
        intro qs hqs t ht
        refine ⟨rfl, fun has => ⟨_, rfl, by rwa [TypeNode.Within]⟩, ?_⟩
        rw [TypeNode.plainTokens, List.append_nil]
        exact .cons ht hqs
      · exact spells_fail fun c => .mismatch c.current _

theorem spells_fullType :
    Spells anywhere fullType (Prints TypeNode.WellFormed TypeNode.tokens) :=
  (spells_annotated (spells_plainType _)).weaken fun _ _ h => ⟨h.1.within, h.2⟩

end Types

end Reader

end AvroIdl
