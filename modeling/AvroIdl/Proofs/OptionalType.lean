import AvroIdl.Proofs.DefaultAcceptance
import AvroIdl.Proofs.DefaultConformance
import AvroIdl.Proofs.PropertyKeys

/-!
# Optional types

A field of an optional type is built to a union of two branches, null and the type without its
question mark. What is written before the type belongs to its branch and not to the union, and the
branch that is meant for the default comes first. A default that the registry lets through is one of
the first branch, as far as the check looks: the union itself takes up one of its levels.
-/
namespace AvroIdl

/-- The type without its question mark, which only types without parts may have. -/
def TypeNode.required : TypeNode → TypeNode
  | primitive k m => primitive k { m with isOptional := false }
  | decimal precision scale m => decimal precision scale { m with isOptional := false }
  | reference name m => reference name { m with isOptional := false }
  | t => t

/-- What a type without parts denotes is primitive, logical or a reference. -/
def Schema.Simple (s : Schema) : Prop :=
  s.kind.isPrimitive = true ∨ s.kind = .logical ∨ s.kind = .reference

theorem Schema.Simple.isUnion {s : Schema} (h : s.Simple) : s.isUnion = false := by
  rw [Schema.isUnion, beq_eq_false_iff_ne]
  intro hunion
  rw [Simple, hunion] at h
  rcases h with h | h | h
  all_goals cases h

namespace Default

section Branches

variable {lookup : Schema.Lookup} {levels : Nat} {t : Schema} {isOptional : Bool} {n : Note}
  {v : Json}

/-- A value other than null that fits an optional type fits the type. -/
theorem fits_of_fits_optional (hv : v ≠ .null)
    (h : mismatchWithin? lookup (levels + 1)
      (.compound (.union isOptional) [t, .plain .null] n) v = none) :
    mismatchWithin? lookup levels t v = none := by
  rw [mismatch_union_iff] at h
  obtain ⟨branch, hbranch, hfits⟩ := h
  simp only [List.mem_cons, List.not_mem_nil, or_false] at hbranch
  rcases hbranch with rfl | rfl
  · exact hfits
  · cases levels with
    | zero => rfl
    | succ levels =>
      have htakes : Primitive.null.Takes v := primitiveMismatch?_eq_none_iff.mp hfits
      cases v with
      | null => exact absurd rfl hv
      | _ => cases htakes

/-- A type that may be optional and is not a registered record has no fields to leave out. -/
theorem filled_of_not_record
    (hnamed : ∀ ref target, lookup ref = some target → target.isNamed = true)
    (hsimple : t.Simple)
    (hrecord : ¬DenotesRecord lookup t) : missingWithin? lookup levels t v = none := by
  cases levels with
  | zero => rfl
  | succ levels =>
    have hother : ∀ target, t.resolve? lookup = some target →
        (∀ h e fields, target ≠ .record h e fields) ∧
          ∀ shape parts n, target = .compound shape parts n →
            ∃ k precision scale, shape = .logical k precision scale := by
      intro target htarget
      refine ⟨fun h e fields he => hrecord ⟨h, e, fields, he ▸ htarget⟩, ?_⟩
      rintro shape parts n rfl
      cases t with
      | reference r =>
        have hname := hnamed r _ htarget
        cases shape with
        | logical k precision scale => exact ⟨k, precision, scale, rfl⟩
        | _ => cases hname
      | compound shape' parts' n' =>
        cases htarget
        cases shape with
        | logical k precision scale => exact ⟨k, precision, scale, rfl⟩
        | _ => rcases hsimple with h | h | h <;> cases h
      | _ => cases htarget
    cases hres : t.resolve? lookup with
    | none => simp [missingWithin?, hres]
    | some target =>
      obtain ⟨hrecord, hlogical⟩ := hother target hres
      cases target with
      | record h e fields => exact absurd rfl (hrecord h e fields)
      | compound shape parts n =>
        obtain ⟨k, precision, scale, rfl⟩ := hlogical shape parts n rfl
        simp [missingWithin?, hres]
      | _ => simp [missingWithin?, hres]

/-- If a registered record is meant, the search for fields that are left out looks into it. -/
theorem filled_of_filled_optional
    (hnamed : ∀ ref target, lookup ref = some target → target.isNamed = true)
    (hsimple : t.Simple)
    (h : missingWithin? lookup (levels + 1)
      (.compound (.union isOptional) [t, .plain .null] n) v = none) :
    missingWithin? lookup levels t v = none := by
  by_cases hrecord : DenotesRecord lookup t
  · cases v with
    | object members =>
      obtain ⟨branch, hbranch, ⟨head, e, fields, hres⟩, hfilled⟩ :=
        missing_union_iff.mp h ⟨t, List.mem_cons_self, hrecord⟩
      simp only [List.mem_cons, List.not_mem_nil, or_false] at hbranch
      rcases hbranch with rfl | rfl
      · exact hfilled
      · cases hres
    | _ =>
      obtain ⟨head, e, fields, hres⟩ := hrecord
      cases levels <;> simp [missingWithin?, hres]
  · exact filled_of_not_record hnamed hsimple hrecord

/-- What fills a record one level further down depends on the pairs below it alone. -/
theorem Filled.of_below {more : Nat} {s : Schema} (h : Filled lookup (levels + 1) s v)
    (hbelow : ∀ p ∈ below lookup s v, Filled lookup levels p.1 p.2 → Filled lookup more p.1 p.2) :
    Filled lookup (more + 1) s v := by
  cases hres : s.resolve? lookup with
  | none => simp [Filled, hres]
  | some target =>
    cases target with
    | record head e fields =>
      cases v with
      | object members =>
        simp only [Filled, below, hres, List.mem_filterMap, Option.map_eq_some_iff] at h hbelow ⊢
        exact ⟨fun f hf w hw => hbelow _ ⟨f, hf, w, hw, rfl⟩ (h.1 f hf w hw), h.2⟩
      | _ => simp [Filled, hres]
    | compound shape parts n =>
      cases shape with
      | array =>
        cases v with
        | array elements =>
          simp only [Filled, below, hres, List.mem_flatMap, List.mem_map, Option.mem_toList]
            at h hbelow ⊢
          exact fun e he part hp => hbelow _ ⟨e, he, part, hp, rfl⟩ (h e he part hp)
        | _ => simp [Filled, hres]
      | map =>
        cases v with
        | object members =>
          simp only [Filled, below, hres, List.mem_flatMap, List.mem_map, Option.mem_toList]
            at h hbelow ⊢
          exact fun m hm part hp => hbelow _ ⟨m, hm, part, hp, rfl⟩ (h m hm part hp)
        | _ => simp [Filled, hres]
      | union isOptional =>
        cases v with
        | object members =>
          simp only [Filled, below, hres, List.mem_map] at h hbelow ⊢
          intro hrecord
          obtain ⟨b, hb, hdenotes, hfilled⟩ := h hrecord
          exact ⟨b, hb, hdenotes, hbelow _ ⟨b, hb, rfl⟩ hfilled⟩
        | _ => simp [Filled, hres]
      | logical k precision scale => simp [Filled, hres]
    | _ => simp [Filled, hres]

/-- A search that has seen all pairs finds no more on further levels. -/
theorem missing_eq_none_of_nestsWithin {depth : Nat} (hnests : nestsWithin lookup depth t v = true)
    (h : missingWithin? lookup (depth + 1) t v = none) (more : Nat) :
    missingWithin? lookup more t v = none := by
  rw [missing_eq_none_iff] at h ⊢
  induction depth generalizing t v more with
  | zero =>
    cases more with
    | zero => trivial
    | succ more =>
      rw [nestsWithin, List.isEmpty_iff] at hnests
      refine h.of_below fun p hp => ?_
      rw [hnests] at hp
      cases hp
  | succ depth ih =>
    cases more with
    | zero => trivial
    | succ more =>
      rw [nestsWithin, List.all_eq_true] at hnests
      exact h.of_below fun p hp hfilled => ih (hnests p hp) hfilled more

end Branches

end Default

namespace Build

open Report Default

/-- The members with which annotations are taken as properties. -/
def Values (as : List Annotation) (ms : Members) : Prop :=
  List.Forall₂ (fun a m => m.1 = a.name ∧ Literal.decodeJson a.value = .ok m.2) as ms

namespace AnnotationSet

/-- Where no annotation has a meaning of its own, each is a property. -/
theorem add_property {set set' : AnnotationSet} {name : Text} {value : Json}
    (h : set.add {} name value = .ok set') :
    name ∉ set.properties.keys ∧ set'.properties = set.properties ++ [(name, value)] := by
  have hadd : set.add {} name value = set.addProperty name value := by simp [add]
  rw [hadd, addProperty] at h
  split at h
  · cases h
  · next hnew =>
    cases h
    exact ⟨fun hmem => hnew (Members.contains_eq_true_iff.mpr hmem), rfl⟩

theorem values_of_collectFrom {file : Text} {set set' : AnnotationSet} {as : List Annotation}
    (h : collectFrom file {} set as = .ok set') :
    ∃ ms, set'.properties = set.properties ++ ms ∧ Values as ms := by
  induction as generalizing set with
  | nil =>
    cases h
    exact ⟨[], (List.append_nil _).symm, .nil⟩
  | cons a as ih =>
    rw [collectFrom] at h
    split at h
    · cases h
    · next value hvalue =>
      split at h
      · cases h
      · next set₁ hadd =>
        obtain ⟨ms, hms, hvalues⟩ := ih h
        obtain ⟨-, hset⟩ := add_property hadd
        refine ⟨(a.name, value) :: ms, ?_, .cons ⟨rfl, hvalue⟩ hvalues⟩
        rw [hms, hset, List.append_assoc]
        rfl

/-- The annotations of a type become its properties. -/
theorem values_of_collect {file : Text} {set : AnnotationSet} {as : List Annotation}
    (h : collect file {} as = .ok set) : set.properties.Distinct ∧ Values as set.properties := by
  obtain ⟨ms, hms, hvalues⟩ := values_of_collectFrom h
  obtain rfl : set.properties = ms := hms
  exact ⟨(collect_yields file {} as _ h).distinct, hvalues⟩

end AnnotationSet

/-- A schema without parts that has not got any properties yet. -/
inductive Base : Schema → Prop
  | primitive (p : Primitive) : Base (.plain p)
  | meaning {s : Schema} (bare : s.properties = []) (kind : s.kind = .logical) : Base s
  | reference {s : Schema} (bare : s.properties = []) (kind : s.kind = .reference) : Base s

/-- What a type without parts denotes before its mark is read. -/
def baseOf (c : Context) : TypeNode → Report Schema
  | .primitive k m =>
    match keywordSchema? k with
    | some s => pure s
    | none => stop c (.unexpectedKeyword k) m.span
  | .decimal precision scale m => decimalSchema c precision scale m.span
  | .reference name _ => pure (referenceTo c name)
  | node => stop c .tooDeep node.mark.span

section Types

variable {c : Context} {node : TypeNode} {mark : TypeMark} {s t : Schema}
  {w w' : List Diagnostic}

/-- The types that may have a question mark are those that have no parts. -/
theorem typeOf_eq (hnode : node.WellFormed) (hopt : node.mark.isOptional = true) :
    typeOf c node = baseOf c node >>= finished c node.mark ∧
      typeOf c node.required =
        baseOf c node >>= finished c { node.mark with isOptional := false } := by
  cases node with
  | primitive k m =>
    simp only [typeOf, TypeNode.required, schemaOf, baseOf, TypeNode.mark]
    cases keywordSchema? k <;> exact ⟨rfl, rfl⟩
  | decimal precision scale m => exact ⟨rfl, rfl⟩
  | reference name m => exact ⟨rfl, rfl⟩
  | array items m | map items m | union items m =>
    have hrequired : m.isOptional = false := by
      change TypeNode.Within (255 + 1) _ at hnode
      rw [TypeNode.Within] at hnode
      exact hnode.2.1
    rw [TypeNode.mark, hrequired] at hopt
    cases hopt

theorem base_decimalSchema (precision : Text) (scale : Option Text) (span : Span) :
    (decimalSchema c precision scale span).Gives Base := by
  refine .bind (.any _) fun p _ => ?_
  have hchecked : ∀ (n : Nat) (atPrecision atScale : Problem),
      Report.Gives
        (if p < 1 ∨ Decimal.parameterLimit < p then stop c atPrecision span
        else if p < n then stop c atScale span
        else pure (.logicalOver .decimal p n [] (.plain .bytes))) Base := by
    intro n _ _
    split
    · exact .fail
    · split
      · exact .fail
      · exact .pure (.meaning rfl rfl)
  cases scale with
  | none => exact .bind (.any _) fun n _ => hchecked n _ _
  | some text => exact .bind (.any _) fun n _ => hchecked n _ _

theorem base_baseOf (node : TypeNode) : (baseOf c node).Gives Base := by
  cases node with
  | primitive k m =>
    rw [baseOf]
    split
    · next hs =>
      apply Gives.pure
      cases k <;> cases hs
      all_goals first
        | exact .primitive _
        | exact .meaning rfl rfl
    · exact .fail
  | decimal precision scale m => exact base_decimalSchema precision scale m.span
  | reference name m => exact .pure (.reference rfl rfl)
  | array items m | map items m | union items m => exact .fail

theorem kind_promote_primitive (p : Primitive) (n : Note) :
    (Schema.primitive p n).promote.kind.isPrimitive = true ∨
      (Schema.primitive p n).promote.kind = .logical := by
  rw [Schema.promote_eq]
  split
  · exact .inl rfl
  · exact .inr rfl

/-- The annotations of a type belong to it, or to the meaning that they give it. -/
structure Carries (as : List Annotation) (t : Schema) : Prop where
  simple : t.Simple
  values : ∃ ms, Values as ms ∧
    (t.properties = ms ∨ ∃ p, t = (Schema.primitive p { properties := ms }).promote)

theorem carries_annotated (hs : Base s) :
    (annotated c mark s).Gives (Carries mark.annotations) := by
  unfold annotated
  split
  · next hnone =>
    rw [List.isEmpty_iff] at hnone
    rw [hnone]
    apply Gives.pure
    cases hs with
    | primitive p => exact ⟨.inl rfl, [], .nil, .inl rfl⟩
    | meaning bare kind => exact ⟨.inr (.inl kind), [], .nil, .inl bare⟩
    | reference bare kind => exact ⟨.inr (.inr kind), [], .nil, .inl bare⟩
  · have hcollected : (Report.ofExcept (AnnotationSet.collect c.file {} mark.annotations)).Gives
        fun set => set.properties.Distinct ∧ Values mark.annotations set.properties :=
      .ofExcept fun set hset => AnnotationSet.values_of_collect hset
    refine .bind hcollected fun set ⟨hdistinct, hvalues⟩ => ?_
    have hmerge : Members.merge [] set.properties = set.properties := by
      rw [Members.merge_eq_append hdistinct, List.nil_append]
      exact Members.without_eq_self fun key hkey => nomatch hkey
    have hproperties : s.properties = [] → (s.mapNote fun n =>
        { n with properties := n.properties.merge set.properties }).properties =
          set.properties := by
      intro hbare
      rw [Schema.properties, Schema.note_mapNote]
      change s.properties.merge set.properties = _
      rw [hbare, hmerge]
    cases hs with
    | primitive p =>
      apply Gives.pure
      have hsimple := kind_promote_primitive p { properties := Members.merge [] set.properties }
      have hpromote :
          (Schema.primitive p { properties := Members.merge [] set.properties }).promote =
            (Schema.primitive p { properties := set.properties }).promote := by
        rw [hmerge]
      exact ⟨hsimple.imp_right .inl, set.properties, hvalues, .inr ⟨p, hpromote⟩⟩
    | meaning bare kind =>
      cases s with
      | compound shape parts n =>
        exact .pure ⟨.inr (.inl ((Schema.kind_mapNote _ _).trans kind)), _, hvalues,
          .inl (hproperties bare)⟩
      | _ => cases kind
    | reference bare kind =>
      cases s with
      | reference r =>
        exact .bind (.any _) fun _ _ =>
          .pure ⟨.inr (.inr rfl), _, hvalues, .inl (hproperties bare)⟩
      | compound shape parts n => cases shape <;> cases kind
      | _ => cases kind

/-- An optional type is the union of null and the type that it is without its question mark. -/
theorem typeOf_optional (hnode : node.WellFormed) (hopt : node.mark.isOptional = true)
    (h : (typeOf c node).run w = (.ok s, w')) :
    ∃ base, (typeOf c node.required).run w = (.ok (placed node.mark.span base), w') ∧
      Carries node.mark.annotations base ∧
      (placed node.mark.span base).branchKey ≠ Primitive.null.text ∧
      s = .compound (.union true) [.plain .null, placed node.mark.span base]
        { span := some node.mark.span } := by
  obtain ⟨hoptional, hrequired⟩ := typeOf_eq (c := c) hnode hopt
  rw [hoptional] at h
  obtain ⟨base, w₁, hbase, h⟩ := bind_run_eq_ok h
  obtain ⟨t, w₂, ht, h⟩ := bind_run_eq_ok h
  have hcarries : Carries node.mark.annotations t :=
    carries_annotated (base_baseOf node w trivial base w₁ hbase) w₁ trivial t w₂ ht
  have hbuilt : (typeOf c node.required).run w = (.ok (placed node.mark.span t), w₂) := by
    rw [hrequired, bind_run_of_ok hbase, finished]
    exact bind_run_of_ok ht
  unfold withMark at h
  rw [hopt] at h
  simp only [Bool.not_true, Bool.false_eq_true, if_false] at h
  split at h
  · cases h
  · next hkey =>
    cases h
    exact ⟨t, hbuilt, hcarries, hkey, rfl⟩

end Types

section Fields

variable {c : Context} {owner : Text} {type : TypeNode} {typeDoc : Option Text} {d : Declarator}
  {f : Field} {w w' : List Diagnostic}

theorem decodedJson_eq_ok {node : JsonNode} {v : Json}
    (h : (decodedJson c node).run w = (.ok v, w')) : Literal.decodeJson node = .ok v ∧ w' = w := by
  unfold decodedJson at h
  split at h
  · next value hvalue =>
    cases h
    exact ⟨hvalue, rfl⟩
  · cases h

/-- A default that a declaration lets through, and what becomes of the type. -/
theorem defaultOf_eq_ok {name : Text} {s s' : Schema} {default : Option JsonNode}
    {value : Option Json} (h : (defaultOf c name owner s default).run w = (.ok (s', value), w')) :
    w' = w ∧ (default = none ∧ value = none ∧ s' = s ∨
      ∃ node v, default = some node ∧ Literal.decodeJson node = .ok v ∧ value = some v ∧
        s' = branchesFor v s) := by
  cases default with
  | none =>
    cases h
    exact ⟨rfl, .inl ⟨rfl, rfl, rfl⟩⟩
  | some node =>
    obtain ⟨v, w₁, hv, hrest⟩ := bind_run_eq_ok h
    obtain ⟨hdecoded, rfl⟩ := decodedJson_eq_ok hv
    dsimp only at hrest
    split at hrest
    · cases hrest
    · cases hrest
      exact ⟨rfl, .inr ⟨node, v, rfl, hdecoded, rfl, rfl⟩⟩

/-- A field has its declared type, with the branches in the order for its default. -/
theorem fieldOf_eq_ok (h : (fieldOf c owner type typeDoc d).run w = (.ok f, w')) :
    ∃ s, (typeOf c type).run w = (.ok s, w') ∧
      (d.default = none ∧ f.default = none ∧ f.type = s ∨
        ∃ node v, d.default = some node ∧ Literal.decodeJson node = .ok v ∧ f.default = some v ∧
          f.type = branchesFor v s) := by
  obtain ⟨set, w₁, hset, hfield⟩ := bind_run_eq_ok h
  have hw : w₁ = w := by
    cases hcollect : AnnotationSet.collect c.file { aliases := true, order := true } d.annotations
    all_goals
      rw [hcollect] at hset
      cases hset
    rfl
  subst hw
  dsimp only at hfield
  split at hfield
  · cases hfield
  · obtain ⟨s, w₂, hs, hrest⟩ := bind_run_eq_ok hfield
    obtain ⟨⟨s', value⟩, w₃, hdefault, hdone⟩ := bind_run_eq_ok hrest
    cases hdone
    obtain ⟨rfl, hcases⟩ := defaultOf_eq_ok hdefault
    exact ⟨s, hs, hcases⟩

/-- The branches of an optional type: null and another type, of which the one that is meant for the
default comes first. -/
structure Ordered (default : Option Json) (t first second : Schema) : Prop where
  null : default = none ∨ default = some .null → first = .plain .null ∧ second = t
  other : ¬(default = none ∨ default = some .null) → first = t ∧ second = .plain .null

theorem branchesFor_optional (v : Json) (t : Schema) (n : Note) :
    ∃ first second, branchesFor v (.compound (.union true) [.plain .null, t] n) =
        .compound (.union true) [first, second] n ∧ Ordered (some v) t first second := by
  cases v with
  | null => exact ⟨_, _, rfl, fun _ => ⟨rfl, rfl⟩, fun h => absurd (.inr rfl) h⟩
  | _ => exact ⟨_, _, rfl, by simp, fun _ => ⟨rfl, rfl⟩⟩

theorem bind_pair (place : Placement) (left : Nat) (shape : Shape) (first second : Schema)
    (n : Note) :
    (Schema.compound shape [first, second] n).bind place left =
      .compound shape [first.bind place (left - 1), second.bind place (left - 1)] n := by
  cases left with
  | zero => simp
  | succ left => rw [Schema.bind_compound, Nat.add_sub_cancel, List.map_cons, List.map_singleton]

/-- A default that the registry lets through is accepted by the first branch. -/
theorem first_accepts {r : Registry} {messages : List Message} {owner file : Text} {g : Field}
    {place : Placement} {left : Nat} {v : Json} {t first second : Schema} {n : Note}
    (hsimple : t.Simple)
    (hordered : Ordered (some v) t first second)
    (hnamed : ∀ e ∈ r.entries, e.schema.isNamed = true) (hc : r.Checks messages owner file g)
    (hdefault : g.default = some v)
    (htype : g.type = (Schema.compound (.union true) [first, second] n).bind place left)
    (hpass : ∀ report ∈ r.validateDefaults messages,
      r.defaultProblem? owner file g ≠ some report) :
    mismatchWithin? r.lookup 256 (first.bind place (left - 1)) v = none ∧
      missingWithin? r.lookup 256 (first.bind place (left - 1)) v = none := by
  have hnone : r.defaultProblem? owner file g = none := by
    rw [Option.eq_none_iff_forall_ne_some]
    intro report hreport
    exact hpass report (Registry.mem_validateDefaults_iff.mpr ⟨owner, file, g, hc, hreport⟩) hreport
  obtain ⟨hfits, hfilled⟩ := Registry.defaultProblem?_eq_none hnone hdefault
  rw [htype, bind_pair] at hfits hfilled
  by_cases hv : v = .null
  · subst hv
    obtain ⟨rfl, rfl⟩ := hordered.null (.inr rfl)
    rw [Schema.plain, Schema.bind_primitive]
    exact ⟨rfl, rfl⟩
  · obtain ⟨rfl, rfl⟩ := hordered.other (by simpa using hv)
    rw [Schema.plain, Schema.bind_primitive] at hfits hfilled
    have hknown : ∀ ref target, r.lookup ref = some target → target.isNamed = true := by
      intro ref target htarget
      obtain ⟨e, he, rfl⟩ := Registry.exists_mem_of_lookup htarget
      exact hnamed e he
    have hbound : (first.bind place (left - 1)).Simple := by
      rwa [Schema.Simple, Schema.kind_bind]
    exact ⟨fits_of_fits_optional hv hfits, filled_of_filled_optional hknown hbound hfilled⟩

/-- A field of an optional type is a union of null and the type without its question mark. The
annotations are with that type, and the branch for the default comes first. A default that the
registry lets through is accepted by the first branch on all levels but one: the union takes one of
the levels that a check looks at, so what lies on the last level of the branch is not seen. -/
theorem fieldOf_optional (htype : type.WellFormed) (hopt : type.mark.isOptional = true)
    (h : (fieldOf c owner type typeDoc d).run w = (.ok f, w')) :
    ∃ t first second, (typeOf c type.required).run w = (.ok t, w') ∧
      f.type = .compound (.union true) [first, second] { span := some type.mark.span } ∧
      t.isUnion = false ∧ t.branchKey ≠ (Schema.plain .null).branchKey ∧
      (∃ ms, Values type.mark.annotations ms ∧
        (t.properties = ms ∨
          ∃ p, t = placed type.mark.span (Schema.primitive p { properties := ms }).promote)) ∧
      (d.default = none ∧ f.default = none ∨
        ∃ node v, d.default = some node ∧ Literal.decodeJson node = .ok v ∧ f.default = some v) ∧
      Ordered f.default t first second ∧
      ∀ (r : Registry) (messages : List Message) (owner' file : Text) (g : Field)
        (place : Placement) (left : Nat) (v : Json),
        (∀ e ∈ r.entries, e.schema.isNamed = true) → r.Checks messages owner' file g →
        g.default = f.default → g.type = f.type.bind place left →
        (∀ report ∈ r.validateDefaults messages, r.defaultProblem? owner' file g ≠ some report) →
        f.default = some v →
        ∃ first' second', g.type =
            .compound (.union true) [first', second'] { span := some type.mark.span } ∧
          first' = first.bind place (left - 1) ∧
          mismatchWithin? r.lookup 256 first' v = none ∧
          missingWithin? r.lookup 256 first' v = none ∧
          (StaysWithin r.lookup 255 first' v →
            Conforms r.lookup first' v ∧ mismatch? r.lookup first' v = none) ∧
          (nestsWithin r.lookup 255 first' v = true → missing? r.lookup first' v = none) := by
  obtain ⟨s, hs, hdefault⟩ := fieldOf_eq_ok h
  obtain ⟨base, hbase, hcarries, hkey, rfl⟩ := typeOf_optional htype hopt hs
  have hsimple : (placed type.mark.span base).Simple := by
    rw [placed, Schema.Simple, Schema.kind_mapNote]
    exact hcarries.simple
  obtain ⟨first, second, hfirst, hordered⟩ : ∃ first second,
      f.type = .compound (.union true) [first, second] { span := some type.mark.span } ∧
        Ordered f.default (placed type.mark.span base) first second := by
    rcases hdefault with ⟨-, hnone, hf⟩ | ⟨node, v, -, -, hv, hf⟩
    · rw [hnone, hf]
      exact ⟨_, _, rfl, fun _ => ⟨rfl, rfl⟩, fun h => absurd (.inl rfl) h⟩
    · rw [hv, hf]
      exact branchesFor_optional v _ _
  refine ⟨placed type.mark.span base, first, second, hbase, hfirst, hsimple.isUnion, hkey,
    ?_, ?_, hordered, ?_⟩
  · obtain ⟨ms, hvalues, hms⟩ := hcarries.values
    refine ⟨ms, hvalues, hms.imp ?_ ?_⟩
    · intro h
      rw [placed, Schema.properties, Schema.note_mapNote]
      exact h
    · rintro ⟨p, rfl⟩
      exact ⟨p, rfl⟩
  · rcases hdefault with ⟨hd, hf, -⟩ | ⟨node, v, hd, hnode, hv, -⟩
    · exact .inl ⟨hd, hf⟩
    · exact .inr ⟨node, v, hd, hnode, hv⟩
  · intro r messages owner' file g place left v hnamed hc hsame hbound hpass hv
    rw [hv] at hordered
    rw [hfirst] at hbound
    obtain ⟨hfits, hfilled⟩ :=
      first_accepts hsimple hordered hnamed hc (hsame.trans hv) hbound hpass
    refine ⟨_, _, hbound.trans (bind_pair place left _ first second _), rfl, hfits, hfilled,
      fun hstays => ?_, fun hnests => missing_eq_none_of_nestsWithin hnests hfilled _⟩
    have hconforms := (fits_iff_conforms hstays).mp hfits
    exact ⟨hconforms, fits_of_conforms hconforms _⟩

/-- An optional reference with a property, and a default that is an item. -/
def itemType : TypeNode :=
  .reference { text := "Item" }
    { annotations := [⟨"note", .scalar .string "n" {}, {}⟩], isOptional := true }

def itemDeclarator : Declarator :=
  { name := { text := "item" }
    default := some (.object [("x", {}, .scalar .integer "1" {})] {}) }

def itemReference : Reference :=
  { name := "Item", properties := [("note", .string "n")], span := some {} }

/-- The field once the items have been registered. -/
def boundItem : Field :=
  { name := "item", default := some (.object [("x", .integer 1)]), span := some {}
    type :=
      .compound (.union true) [.reference { itemReference with binding := some 0 }, .plain .null]
        { span := some {} } }

def itemRegistry : Registry :=
  { entries :=
      [⟨.record { name := "Item" } false [{ name := "x", type := .plain .int }], []⟩,
        ⟨.record { name := "List" } false [boundItem], []⟩] }

theorem item_accepted :
    itemType.WellFormed ∧ itemType.mark.isOptional = true ∧
      ∃ f w', (fieldOf { file := [] } "record 'List'" itemType none itemDeclarator).run [] =
          (.ok f, w') ∧
        f.type = .compound (.union true) [.reference itemReference, .plain .null]
          { span := some {} } ∧
        itemRegistry.validateDefaults [] = [] ∧
        Conforms itemRegistry.lookup (.reference { itemReference with binding := some 0 })
          (.object [("x", .integer 1)]) := by
  have hformed : itemType.WellFormed := by
    rw [TypeNode.WellFormed, itemType, TypeNode.Within]
    intro a ha
    obtain rfl := List.mem_singleton.mp ha
    rw [ Annotation.WellFormed, JsonNode.Within]
    intro hword
    cases hword
  have hpass : itemRegistry.validateDefaults [] = [] := by
    decide +kernel
  have hnamed : ∀ e ∈ itemRegistry.entries, e.schema.isNamed = true := by
    decide
  have hentry : (⟨.record { name := "List" } false [boundItem], []⟩ : Registry.Entry) ∈
      itemRegistry.entries := by
    simp [itemRegistry]
  obtain ⟨f, w', hrun⟩ : ∃ f w',
      (fieldOf { file := [] } "record 'List'" itemType none itemDeclarator).run [] =
        (.ok f, w') := ⟨_, _, rfl⟩
  obtain ⟨t, first, second, ht, hf, -, -, -, -, hordered, haccepts⟩ :=
    fieldOf_optional hformed rfl hrun
  cases hrun
  obtain ⟨rfl, rfl⟩ := hordered.other (by simp)
  cases ht
  obtain ⟨first', second', htype, -, -, -, hconforms, -⟩ :=
    haccepts itemRegistry [] _ _ boundItem (fun full => if full = "Item" then some 0 else none)
      Schema.bindingLevels _ hnamed (.field hentry rfl (by simp)) rfl rfl
      (by simp [hpass]) rfl
  cases htype
  have hstays : StaysWithin itemRegistry.lookup 255
      (.reference { itemReference with binding := some 0 }) (.object [("x", .integer 1)]) :=
    staysWithin_of_nestsWithin (by decide)
  exact ⟨hformed, rfl, _, _, rfl, rfl, hpass, (hconforms hstays).1⟩

/-- An optional type that holds itself, and objects, one inside the other, around a number. -/
def nestType : TypeNode := .reference { text := "N" } { isOptional := true }

def nestNode : Nat → JsonNode
  | 0 => .scalar .integer "1" {}
  | n + 1 => .object [("n", {}, nestNode n)] {}

def nestValue : Nat → Json
  | 0 => .integer 1
  | n + 1 => .object [("n", nestValue n)]

theorem decodeJson_nestNode (n : Nat) : Literal.decodeJson (nestNode n) = .ok (nestValue n) := by
  induction n with
  | zero => rfl
  | succ n ih =>
    have hkey : Literal.located {} (Literal.decodeString "n") = .ok "n" := rfl
    rw [nestNode, Literal.decodeJson, Literal.decodeMembers, hkey, ih]
    rfl

def nestLink : Reference := { name := "N", span := some {} }

/-- The field that a nest of objects is the default of, before its reference is bound. -/
def nestField (default : Json) : Field :=
  { name := "f", default := some default, span := some {}
    type := .compound (.union true) [.reference nestLink, .plain .null] { span := some {} } }

theorem fieldOf_nest {node : JsonNode} {v : Json} (hnode : Literal.decodeJson node = .ok v)
    (hv : v ≠ .null) :
    (fieldOf { file := [] } "record 'R'" nestType none
      { name := { text := "f" }, default := some node }).run [] = (.ok (nestField v), []) := by
  have hbranches : branchesFor v (.compound (.union true)
      [.plain .null, .reference nestLink] { span := some {} }) = (nestField v).type := by
    cases v with
    | null => exact absurd rfl hv
    | _ => rfl
  have hfits : mismatch? Schema.Lookup.none (nestField v).type v = none :=
    mismatch_union_iff.mpr ⟨_, List.mem_cons_self, rfl⟩
  have hdefault : (defaultOf { file := [] } "f" "record 'R'" (.compound (.union true)
      [.plain .null, .reference nestLink] { span := some {} }) (some node)).run [] =
        (.ok ((nestField v).type, some v), []) := by
    have hdecoded : decodedJson { file := [] } node = pure v := by
      rw [decodedJson, hnode]
    change (decodedJson { file := [] } node >>= fun value => _).run [] = _
    rw [hdecoded, pure_bind]
    dsimp only
    rw [hbranches, hfits]
    rfl
  change (defaultOf { file := [] } "f" "record 'R'" (.compound (.union true)
    [.plain .null, .reference nestLink] { span := some {} }) (some node) >>= fun p => _).run [] = _
  rw [bind_run_of_ok hdefault]
  rfl

def nestPlace : Placement := fun full => if full = "N" then some 0 else none

/-- The field with its reference bound, in a registry beside the type that holds itself. -/
def boundNest : Field :=
  { nestField (nestValue 128) with type := (nestField (nestValue 128)).type.bindAll nestPlace }

def nestRegistry : Registry :=
  { entries :=
      [⟨.record { name := "N" } false
          [{ name := "n"
             type := .compound (.union true)
               [.plain .null, .reference { nestLink with binding := some 0 }] {} }], []⟩,
        ⟨.record { name := "R" } false [boundNest], []⟩] }

/-- Inside the union the number stands where the check does not look any more. The first branch
alone is looked at one level further down, and refuses the value. -/
theorem exists_refused_first :
    ∃ f w' first second v,
      (fieldOf { file := [] } "record 'R'" nestType none
        { name := { text := "f" }, default := some (nestNode 128) }).run [] = (.ok f, w') ∧
      nestRegistry.Checks [] "record 'R'" []
        { f with type := f.type.bindAll nestPlace } ∧
      nestRegistry.validateDefaults [] = [] ∧
      f.type.bindAll nestPlace =
        .compound (.union true) [first, second] { span := some {} } ∧
      f.default = some v ∧ mismatch? nestRegistry.lookup first v ≠ none := by
  have hbuilt := fieldOf_nest (decodeJson_nestNode 128) nofun
  have hentry : (⟨.record { name := "R" } false [boundNest], []⟩ : Registry.Entry) ∈
      nestRegistry.entries := by
    simp [nestRegistry]
  have hpass : nestRegistry.validateDefaults [] = [] := by
    decide +kernel
  have hrefused : (mismatch? nestRegistry.lookup
      (.reference { nestLink with binding := some 0 }) (nestValue 128)).isSome = true := by
    decide +kernel
  have hchecks : nestRegistry.Checks [] "record 'R'" [] boundNest :=
    .field hentry rfl List.mem_cons_self
  exact ⟨_, _, _, _, _, hbuilt, hchecks, hpass, rfl, rfl, Option.isSome_iff_ne_none.mp hrefused⟩

end Fields

end Build

end AvroIdl
