import AvroIdl.Proofs.Acceptance

/-!
# Printed values and types are read back

What a reader makes of a printed JSON value, annotation or type says the same: both are equal once
places and documentation are left out.
-/
namespace AvroIdl

open Token (ofMark ofKeyword ofName ofLiteral)

namespace Reader

theorem map_eq_of_forall₂ {α β : Type} {g : α → β} {xs ys : List α}
    (h : List.Forall₂ (fun x y => g y = g x) xs ys) : ys.map g = xs.map g := by
  induction h with
  | nil => rfl
  | cons hxy _ ih => simp [hxy, ih]

section Json

variable {levels : Nat}

theorem takes_object (members : List (Text × Span × JsonNode)) (span : Span)
    (h : ∀ m ∈ members,
      Takes (json levels) (fun w => w.bare = m.2.2.bare) m.2.2.tokens anything) :
    Takes (json (levels + 1)) (fun w => w.bare = (JsonNode.object members span).bare)
      (JsonNode.object members span).tokens anything := by
  rw [JsonNode.tokens, JsonNode.memberTokens_eq_map, List.cons_append]
  unfold json
  refine takes_peek fun first => takes_accept_then rfl (by simp) ?_
  have hmember : ∀ m ∈ members, Takes (do
        let key ← expect .string
        let _ ← expectMark .colon
        let w ← json levels
        pure (key.text, key.span, w))
      (fun w => JsonNode.bareMember w = JsonNode.bareMember m) (JsonNode.memberToken m)
      anything := by
    intro m hm
    refine takes_expect rfl (by simp) fun key hkey => takes_expectMark _ fun _ => ?_
    refine (h m hm).finish fun w hw => Takes.pure ?_
    simp [JsonNode.bareMember, (hkey.text rfl).1, hw, ofLiteral]
  refine takes_enclosed (fun k hk => hk) (fun m _ => ⟨_, _, rfl, by simp⟩) hmember trivial
    ⟨trivial, by simp⟩ fun ms hms => ?_
  refine takes_expectMark _ fun _ => takes_get fun c _ _ => Takes.pure ?_
  simp [JsonNode.bare, JsonNode.bareMembers_eq_map, map_eq_of_forall₂ hms]

theorem takes_array (elements : List JsonNode) (span : Span)
    (h : ∀ v ∈ elements, Takes (json levels) (fun w => w.bare = v.bare) v.tokens anything)
    (hfirst : ∀ v ∈ elements, Begins (· ≠ .mark .rightBracket) v.tokens) :
    Takes (json (levels + 1)) (fun w => w.bare = (JsonNode.array elements span).bare)
      (JsonNode.array elements span).tokens anything := by
  rw [JsonNode.tokens, JsonNode.elementTokens_eq_map, List.cons_append]
  unfold json
  refine takes_peek fun first => takes_accept_skip (by simp [ofMark]) ?_
  refine takes_accept_then rfl (by simp) ?_
  refine takes_enclosed (fun k hk => hk) hfirst h trivial ⟨trivial, by simp⟩ fun vs hvs => ?_
  refine takes_expectMark _ fun _ => takes_get fun c _ _ => Takes.pure ?_
  simp [JsonNode.bare, JsonNode.bareElements_eq_map, map_eq_of_forall₂ hvs]

theorem takes_scalar (kind : JsonNode.Scalar) (text : Text) (span : Span)
    (h : kind.kind.keepsText = false → text = []) :
    Takes (json (levels + 1)) (fun w => w.bare = (JsonNode.scalar kind text span).bare)
      (JsonNode.scalar kind text span).tokens anything := by
  rw [JsonNode.tokens]
  unfold json
  refine takes_peek fun first => ?_
  have hread (c : Cursor) (hc : Token.Matches (ofLiteral kind.kind text) c.previous)
      (hkeeps : kind.kind.keepsText = true) : c.previous.text = text := (hc.text hkeeps).1
  -- the kinds are tried in the order of the cases
  refine takes_accept_skip (by cases kind <;> simp [JsonNode.Scalar.kind]) ?_
  refine takes_accept_skip (by cases kind <;> simp [JsonNode.Scalar.kind]) ?_
  cases kind with
  | string =>
    refine takes_accept_get rfl (by simp) fun c hc => takes_get fun _ _ _ => Takes.pure ?_
    simp [JsonNode.bare, hread c hc rfl]
  | integer =>
    refine takes_accept_skip nofun ?_
    refine takes_accept_get rfl (by simp) fun c hc => takes_get fun _ _ _ => Takes.pure ?_
    simp [JsonNode.bare, hread c hc rfl]
  | float =>
    refine takes_accept_skip nofun (takes_accept_skip nofun ?_)
    refine takes_accept_get rfl (by simp) fun c hc => takes_get fun _ _ _ => Takes.pure ?_
    simp [JsonNode.bare, hread c hc rfl]
  | true =>
    refine takes_accept_skip nofun (takes_accept_skip nofun (takes_accept_skip nofun ?_))
    refine takes_accept_then rfl (by simp) (takes_get fun _ _ _ => Takes.pure ?_)
    simp [JsonNode.bare, h rfl]
  | false =>
    refine takes_accept_skip nofun (takes_accept_skip nofun (takes_accept_skip nofun ?_))
    refine takes_accept_skip nofun ?_
    refine takes_accept_then rfl (by simp) (takes_get fun _ _ _ => Takes.pure ?_)
    simp [JsonNode.bare, h rfl]
  | null =>
    refine takes_accept_skip nofun (takes_accept_skip nofun (takes_accept_skip nofun ?_))
    refine takes_accept_skip nofun (takes_accept_skip nofun ?_)
    refine takes_accept_then rfl (by simp) (takes_get fun _ _ _ => Takes.pure ?_)
    simp [JsonNode.bare, h rfl]

theorem begins_json (v : JsonNode) : Begins (· ≠ .mark .rightBracket) v.tokens := by
  cases v with
  | object members span => exact ⟨_, _, by rw [JsonNode.tokens]; rfl, by simp [ofMark]⟩
  | array elements span => exact ⟨_, _, by rw [JsonNode.tokens]; rfl, by simp [ofMark]⟩
  | scalar kind text span =>
    refine ⟨_, _, by rw [JsonNode.tokens], ?_⟩
    cases kind <;> simp [ofLiteral, JsonNode.Scalar.kind]

theorem takes_json (v : JsonNode) (hv : v.Within levels) :
    Takes (json (levels + 1)) (fun w => w.bare = v.bare) v.tokens anything := by
  induction levels generalizing v with
  | zero =>
    cases v with
    | object members span =>
      rw [JsonNode.Within] at hv
      exact takes_object members span (by simp [hv])
    | array elements span =>
      rw [JsonNode.Within] at hv
      exact takes_array elements span (by simp [hv]) (by simp [hv])
    | scalar kind text span =>
      rw [JsonNode.Within] at hv
      exact takes_scalar kind text span hv
  | succ levels ih =>
    cases v with
    | object members span =>
      rw [JsonNode.Within] at hv
      exact takes_object members span fun m hm => ih m.2.2 (hv m hm)
    | array elements span =>
      rw [JsonNode.Within] at hv
      exact takes_array elements span (fun v hv' => ih v (hv v hv')) fun v _ => begins_json v
    | scalar kind text span =>
      rw [JsonNode.Within] at hv
      exact takes_scalar kind text span hv

end Json

theorem takes_annotation (a : Annotation) (ha : a.WellFormed) :
    Takes annotation (fun b => b.bare = a.bare) a.tokens anything := by
  unfold annotation Annotation.tokens
  refine takes_advance (by simp [ofMark]) fun sign _ => takes_name fun name hname _ => ?_
  refine takes_expectMark _ fun _ => ?_
  refine (takes_json a.value ha).bind (fun _ _ => trivial) fun v hv => ?_
  refine takes_expectMark _ fun closing => Takes.pure ?_
  simp [hname, hv, Annotation.bare]

theorem takes_annotations (as : List Annotation) (has : ∀ a ∈ as, a.WellFormed) :
    Takes annotations (fun bs => bs.map Annotation.bare = as.map Annotation.bare)
      (as.flatMap Annotation.tokens) (· ≠ .mark .at) := by
  have hmany : Takes annotations (List.Forall₂ (fun a b => Annotation.bare b = a.bare) as)
      (as.flatMap Annotation.tokens) (· ≠ .mark .at) := by
    have hbegins : ∀ a ∈ as, Begins (· = .mark .at) a.tokens := fun a _ => ⟨_, _, rfl, rfl⟩
    refine takes_many (fun a ha => takes_annotation a (has a ha)) hbegins ?_ ?_
      fun _ _ => trivial
    · intro c hc hk
      simp [Cursor.isAt, hc, hk]
    · intro c hk
      simp [Cursor.isAt, hk]
  exact hmany.mono (fun bs hbs => map_eq_of_forall₂ hbs) fun _ h => h

/-- What annotations stand before begins like them, or with an at sign. -/
theorem begins_annotated {p : Token.Kind → Prop} {printed : List Token} (as : List Annotation)
    (hat : p (.mark .at)) (h : Begins p printed) :
    Begins p (as.flatMap Annotation.tokens ++ printed) := by
  cases as with
  | nil => exact h
  | cons a as =>
    rw [List.flatMap_cons, List.append_assoc]
    exact ⟨_, _, rfl, hat⟩

theorem takes_identifier {β : Type} {f : Identifier → Reader β} {Q : β → Prop}
    {printed : List Token} {next : Token.Kind → Prop} {i : Identifier}
    (h : ∀ j, j.bare = i.bare → Takes (f j) Q printed next) :
    Takes (identifier >>= f) Q (i.token :: printed) next :=
  takes_name fun j htext hescaped => h j (by simp [Identifier.bare, htext, hescaped])

theorem takes_identifier_only (i : Identifier) :
    Takes identifier (fun j => j.bare = i.bare) [i.token] anything := by
  have h : Takes (identifier >>= pure) (fun j => j.bare = i.bare) [i.token] anything :=
    takes_identifier fun j hj => Takes.pure hj
  rwa [bind_pure] at h

section Types

variable {levels : Nat} {as : List Annotation} {start : Span}

theorem takes_question {β : Type} {f : Bool → Reader β} {Q : β → Prop} (m : TypeMark)
    (h : Takes (f m.isOptional) Q [] (· ≠ .mark .question)) :
    Takes (accept (.mark .question) >>= f) Q m.question (· ≠ .mark .question) := by
  unfold TypeMark.question
  cases hm : m.isOptional with
  | true =>
    rw [hm] at h
    exact takes_accept rfl (by simp) h
  | false =>
    rw [hm] at h
    exact takes_decline (fun k hk => hk) h

theorem takes_marked {next : Token.Kind → Prop} (m : TypeMark)
    (has : as.map Annotation.bare = m.annotations.map Annotation.bare) (isOptional : Bool)
    (hm : isOptional = m.isOptional) :
    Takes (do
        let c ← get
        pure ⟨as, isOptional, start.to c.previous.span⟩ : Reader TypeMark)
      (fun m' => m'.bare = m.bare) [] next :=
  takes_get fun c _ _ => Takes.pure (by simp [TypeMark.bare, has, hm])

/-- Types without parts, which may be optional. -/
theorem takes_leaf {g : TypeMark → TypeNode} {t : TypeNode} (m : TypeMark)
    (has : as.map Annotation.bare = m.annotations.map Annotation.bare)
    (hg : ∀ m', m'.bare = m.bare → (g m').bare = t.bare) :
    Takes (do
        let isOptional ← accept (.mark .question)
        let m ← (do
          let c ← get
          pure ⟨as, isOptional, start.to c.previous.span⟩ : Reader TypeMark)
        pure (g m))
      (fun u => u.bare = t.bare) m.question (· ≠ .mark .question) := by
  refine takes_question m ?_
  exact (takes_marked m has _ rfl).finish fun m' hm' => Takes.pure (hg m' hm')

theorem begins_plainType {t : TypeNode} (ht : t.Within levels) :
    Begins (· ∈ typeStarts) t.plainTokens := by
  cases t with
  | primitive k m =>
    refine ⟨_, _, by rw [TypeNode.plainTokens], ?_⟩
    have hk : k.isType = true := by
      rw [TypeNode.Within] at ht
      exact ht.2.1
    cases k <;> first | exact absurd hk (by decide) | decide
  | decimal precision scale m => exact ⟨_, _, by rw [TypeNode.plainTokens]; rfl, by decide⟩
  | reference name m =>
    exact ⟨_, _, by rw [TypeNode.plainTokens], by simp [Identifier.token, ofName, typeStarts]⟩
  | array items m => exact ⟨_, _, by rw [TypeNode.plainTokens]; rfl, by decide⟩
  | map values m => exact ⟨_, _, by rw [TypeNode.plainTokens]; rfl, by decide⟩
  | union branches m => exact ⟨_, _, by rw [TypeNode.plainTokens]; rfl, by decide⟩

theorem annotations_of_within {t : TypeNode} (ht : t.Within levels) :
    ∀ a ∈ t.annotations, a.WellFormed := by
  cases t <;> cases levels <;> simp_all [TypeNode.Within, TypeNode.annotations, TypeNode.mark]

/-- A type of which the reader without annotations takes everything but the annotations. -/
theorem takes_annotated {t : TypeNode} {P : TypeNode → Prop} (ht : ∃ n, t.Within n)
    (h : ∀ as start, as.map Annotation.bare = t.annotations.map Annotation.bare →
      Takes (plainType levels as start) P t.plainTokens (· ≠ .mark .question)) :
    Takes (do
        let first ← peek
        let as ← annotations
        plainType levels as first.span) P t.tokens (· ≠ .mark .question) := by
  obtain ⟨n, ht⟩ := ht
  refine takes_peek fun first => ?_
  refine (takes_annotations t.annotations (annotations_of_within ht)).bind ?_
    fun as has => h as _ has
  intro k hk hat
  have hstart := (begins_plainType ht).starts hk
  rw [hat] at hstart
  exact absurd hstart (by decide)

theorem takes_primitive (k : Keyword) (m : TypeMark)
    (ht : (TypeNode.primitive k m).Within levels)
    (has : as.map Annotation.bare = m.annotations.map Annotation.bare) :
    Takes (plainType (levels + 1) as start) (fun u => u.bare = (TypeNode.primitive k m).bare)
      (TypeNode.primitive k m).plainTokens (· ≠ .mark .question) := by
  rw [TypeNode.Within] at ht
  obtain ⟨-, hk, hdecimal⟩ := ht
  have hother (k' : Keyword) (hk' : k'.isType = false) : (ofKeyword k).kind ≠ .keyword k' := by
    rintro ⟨⟩
    simp [hk] at hk'
  rw [TypeNode.plainTokens]
  unfold plainType
  refine takes_accept_skip (hother _ rfl) (takes_accept_skip (hother _ rfl) ?_)
  refine takes_accept_skip (hother _ rfl) (takes_accept_skip (by simpa [ofKeyword]) ?_)
  refine takes_get fun c hc hkind => ?_
  have hprimitive : c.primitive? = some k := by
    rw [Cursor.primitive?, hc, show c.current.kind = .keyword k from hkind]
    simp [hk]
  simp only [hprimitive]
  refine takes_advance (by simp) fun _ _ => takes_leaf m has fun m' hm' => ?_
  rw [TypeNode.bare, TypeNode.bare, hm']

theorem takes_decimal (precision : Text) (scale : Option Text) (m : TypeMark)
    (has : as.map Annotation.bare = m.annotations.map Annotation.bare) :
    Takes (plainType (levels + 1) as start)
      (fun u => u.bare = (TypeNode.decimal precision scale m).bare)
      (TypeNode.decimal precision scale m).plainTokens (· ≠ .mark .question) := by
  rw [TypeNode.plainTokens]
  unfold plainType
  refine takes_accept_skip (by decide) (takes_accept_skip (by decide) ?_)
  refine takes_accept_skip (by decide) (takes_accept_then rfl (by simp) ?_)
  refine takes_expectMark _ fun _ => takes_expect rfl (by simp) fun p hp => ?_
  have hp : p.text = precision := (hp.text rfl).1
  cases scale with
  | none =>
    refine takes_accept_skip (by decide) ?_
    rw [pure_bind]
    refine takes_expectMark _ fun _ => takes_leaf m has fun m' hm' => ?_
    simp [TypeNode.bare, hm', hp]
  | some s =>
    refine takes_accept_then rfl (by simp) ?_
    rw [bind_map_left]
    refine takes_expect rfl (by simp) fun q hq => ?_
    have hq : q.text = s := (hq.text rfl).1
    refine takes_expectMark _ fun _ => takes_leaf m has fun m' hm' => ?_
    simp [TypeNode.bare, hm', hp, hq]

theorem takes_reference (name : Identifier) (m : TypeMark)
    (has : as.map Annotation.bare = m.annotations.map Annotation.bare) :
    Takes (plainType (levels + 1) as start) (fun u => u.bare = (TypeNode.reference name m).bare)
      (TypeNode.reference name m).plainTokens (· ≠ .mark .question) := by
  have hother (k : Keyword) : name.token.kind ≠ .keyword k := by simp [Identifier.token, ofName]
  rw [TypeNode.plainTokens]
  unfold plainType
  refine takes_accept_skip (hother _) (takes_accept_skip (hother _) ?_)
  refine takes_accept_skip (hother _) (takes_accept_skip (hother _) ?_)
  refine takes_get fun c hc hkind => ?_
  have hkind : c.current.kind = .identifier := hkind
  have hprimitive : c.primitive? = none := by rw [Cursor.primitive?, hc, hkind]
  have hname : (c.isAtName && !c.isAt (.keyword .void)) = true := by
    simp [Cursor.isAtName, Cursor.isAt, hc, hkind, Token.Kind.isName]
  simp only [hprimitive, if_pos hname]
  refine takes_identifier fun i hi => takes_leaf m has fun m' hm' => ?_
  rw [TypeNode.bare, TypeNode.bare, hi, hm']

/-- Arrays and maps. -/
theorem takes_container {g : TypeNode → TypeMark → TypeNode} {element : Reader TypeNode}
    {part : TypeNode} {m : TypeMark} (hg : ∀ u m, (g u m).bare = g u.bare m.bare)
    (hm : m.isOptional = false) (has : as.map Annotation.bare = m.annotations.map Annotation.bare)
    (hpart : Takes element (fun u => u.bare = part.bare) part.tokens (· ≠ .mark .question)) :
    Takes (do
        let _ ← expectMark .lessThan
        let u ← element
        let _ ← expectMark .greaterThan
        let m ← (do
          let c ← get
          pure ⟨as, false, start.to c.previous.span⟩ : Reader TypeMark)
        pure (g u m))
      (fun v => v.bare = (g part m).bare)
      (ofMark .lessThan :: (part.tokens ++ [ofMark .greaterThan])) (· ≠ .mark .question) := by
  refine takes_expectMark _ fun _ => hpart.bind ?_ fun u hu => takes_expectMark _ fun _ => ?_
  · intro k hk
    simp [show k = _ from hk]
  refine (takes_marked m has _ hm.symm).finish fun m' hm' => Takes.pure ?_
  rw [hg, hg, hu, hm']

theorem takes_plainType (t : TypeNode) (ht : t.Within levels)
    (has : as.map Annotation.bare = t.annotations.map Annotation.bare) :
    Takes (plainType (levels + 1) as start) (fun u => u.bare = t.bare) t.plainTokens
      (· ≠ .mark .question) := by
  induction levels generalizing t as start with
  | zero =>
    cases t with
    | primitive k m => exact takes_primitive k m ht has
    | decimal precision scale m => exact takes_decimal precision scale m has
    | reference name m => exact takes_reference name m has
    | array items m => simp [TypeNode.Within] at ht
    | map values m => simp [TypeNode.Within] at ht
    | union branches m => simp [TypeNode.Within] at ht
  | succ levels ih =>
    have hpart (u : TypeNode) (hu : u.Within levels) := takes_annotated ⟨levels, hu⟩
      fun _ _ has => ih u hu has
    cases t with
    | primitive k m => exact takes_primitive k m ht has
    | decimal precision scale m => exact takes_decimal precision scale m has
    | reference name m => exact takes_reference name m has
    | array items m =>
      rw [TypeNode.Within] at ht
      rw [TypeNode.plainTokens]
      unfold plainType
      refine takes_accept_then rfl (by simp) ?_
      exact takes_container (fun _ _ => by rw [TypeNode.bare]) ht.2.1 has (hpart items ht.2.2)
    | map values m =>
      rw [TypeNode.Within] at ht
      rw [TypeNode.plainTokens]
      unfold plainType
      refine takes_accept_skip (by decide) (takes_accept_then rfl (by simp) ?_)
      exact takes_container (fun _ _ => by rw [TypeNode.bare]) ht.2.1 has (hpart values ht.2.2)
    | union branches m =>
      rw [TypeNode.Within] at ht
      obtain ⟨-, hm, hne, hbranches⟩ := ht
      rw [TypeNode.plainTokens, TypeNode.branchTokens_eq_map]
      unfold plainType
      refine takes_accept_skip (by decide) (takes_accept_skip (by decide) ?_)
      refine takes_accept_then rfl (by simp) (takes_expectMark _ fun _ => ?_)
      refine takes_separated_bind (fun k hk => hk) hne (fun u hu => hpart u (hbranches u hu))
        (by simp) (by simp) fun us hus => takes_expectMark _ fun _ => ?_
      refine (takes_marked m has _ hm.symm).finish fun m' hm' => Takes.pure ?_
      simp [TypeNode.bare, hm', TypeNode.bareBranches_eq_map, map_eq_of_forall₂ hus]

theorem takes_fullType (t : TypeNode) (ht : t.WellFormed) :
    Takes fullType (fun u => u.bare = t.bare) t.tokens (· ≠ .mark .question) :=
  takes_annotated ⟨_, ht⟩ fun _ _ has => takes_plainType t ht has

theorem begins_type {t : TypeNode} (ht : t.WellFormed) {p : Token.Kind → Prop}
    (hat : p (.mark .at)) (hp : ∀ k ∈ typeStarts, p k) : Begins p t.tokens :=
  begins_annotated _ hat ((begins_plainType ht).mono hp)

end Types

end Reader

end AvroIdl
