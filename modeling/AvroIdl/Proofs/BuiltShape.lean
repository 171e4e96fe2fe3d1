import AvroIdl.Build.Declaration
import AvroIdl.Proofs.Guarantee
import AvroIdl.Proofs.Shape

/-!
# The shape of what a source declares

The types and messages that the declarations of a source denote have the shape of fresh schemas.
The lemmas follow the builder from annotations over types and fields to declarations.
-/
namespace AvroIdl

namespace Build

open Schema (Part Branch)

/-- Annotations of the name have a meaning of their own. -/
def Targets.Takes (t : Targets) (name : Text) : Prop :=
  name = "namespace" ∧ t.space = true ∨ name = "aliases" ∧ t.aliases = true ∨
    name = "order" ∧ t.order = true

namespace AnnotationSet

/-- An annotation either has a meaning of its own or becomes a property of a new key. -/
theorem properties_of_add {targets : Targets} {set set' : AnnotationSet} {name : Text}
    {value : Json} (h : set.add targets name value = .ok set') :
    set'.properties = set.properties ∨
      ¬targets.Takes name ∧ name ∉ set.properties.keys ∧
        set'.properties = set.properties ++ [(name, value)] := by
  unfold add at h
  split at h
  · unfold addSpace at h
    repeat' split at h
    all_goals cases h
    exact .inl rfl
  · next hspace =>
    split at h
    · unfold addAliases at h
      repeat' split at h
      all_goals cases h
      exact .inl rfl
    · next haliases =>
      split at h
      · unfold addOrder at h
        repeat' split at h
        all_goals cases h
        exact .inl rfl
      · next horder =>
        unfold addProperty at h
        split at h
        · cases h
        · next hnew =>
          cases h
          refine .inr ⟨fun htakes => htakes.elim hspace (·.elim haliases horder), ?_, rfl⟩
          rw [← Members.contains_eq_true_iff]
          exact hnew

/-- What the properties of a declaration look like: no annotation with a meaning of its own is
among them. -/
structure Collected (targets : Targets) (set : AnnotationSet) : Prop where
  distinct : set.properties.Distinct
  free : ∀ key, targets.Takes key → key ∉ set.properties.keys

theorem Collected.add {targets : Targets} {set set' : AnnotationSet} {name : Text} {value : Json}
    (hs : Collected targets set) (h : set.add targets name value = .ok set') :
    Collected targets set' := by
  rcases properties_of_add h with heq | ⟨hname, hnew, heq⟩
  · exact ⟨heq ▸ hs.distinct, heq ▸ hs.free⟩
  · refine ⟨heq ▸ hs.distinct.append_new hnew, fun key hkey hin => ?_⟩
    rw [heq, Members.keys_append] at hin
    rcases List.mem_append.mp hin with hin | hin
    · exact hs.free key hkey hin
    · obtain rfl : key = name := List.mem_singleton.mp hin
      exact hname hkey

theorem collectFrom_yields (file : Text) (targets : Targets) {set : AnnotationSet}
    (h : Collected targets set) (as : List Annotation) :
    Yields (collectFrom file targets set as) (Collected targets) := by
  induction as generalizing set with
  | nil => exact .ok h
  | cons a as ih =>
    rw [collectFrom]
    split
    · exact .error
    · split
      · exact .error
      · next set' heq => exact ih (h.add heq)

theorem collect_yields (file : Text) (targets : Targets) (as : List Annotation) :
    Yields (collect file targets as) (Collected targets) :=
  collectFrom_yields file targets ⟨Members.distinct_nil, fun _ _ => by simp [Members.keys]⟩ as

end AnnotationSet

theorem branch_plain (p : Primitive) : Branch (.plain p) :=
  ⟨⟨Schema.fresh_plain p, rfl⟩, rfl⟩

theorem branch_logicalOver {k : LogicalKind} {p : Primitive} {precision scale : Nat}
    (ha : k.accepts (.primitive p) = true) (hs : k.Suits none precision scale) :
    Branch (.logicalOver k precision scale [] (.plain p)) :=
  ⟨⟨Schema.fresh_logicalOver Members.distinct_nil (Schema.fresh_plain p) rfl ha hs, rfl⟩, rfl⟩

theorem branch_keywordSchema {k : Keyword} {s : Schema} (h : keywordSchema? k = some s) :
    Branch s := by
  cases k <;> cases h
  all_goals first
    | exact branch_plain _
    | exact branch_logicalOver rfl ⟨rfl, rfl⟩

theorem decimalSchema_gives (c : Context) (precision : Text) (scale : Option Text) (span : Span) :
    (decimalSchema c precision scale span).Gives Branch := by
  refine .bind (.any _) fun p _ => ?_
  have hchecked : ∀ (s : Nat) (atPrecision atScale : Problem),
      Report.Gives
        (if p < 1 ∨ Decimal.parameterLimit < p then stop c atPrecision span
        else if p < s then stop c atScale span
        else pure (.logicalOver .decimal p s [] (.plain .bytes))) Branch := by
    intro s _ _
    split
    · exact .fail
    · split
      · exact .fail
      · exact .pure (branch_logicalOver rfl ⟨by omega, by omega, by omega, by simp⟩)
  cases scale with
  | none => exact .bind (.any _) fun s _ => hchecked s _ _
  | some t => exact .bind (.any _) fun s _ => hchecked s _ _

theorem branch_referenceTo (c : Context) (name : Identifier) : Branch (referenceTo c name) :=
  ⟨⟨Schema.fresh_reference (Scope.dot_notMem_qualify c.scope name.text) rfl, rfl⟩, rfl⟩

theorem fresh_addProperties {shape : Shape} {parts : List Schema} {n : Note} {added : Members}
    (h : (Schema.compound shape parts n).Fresh)
    (hu : (Schema.compound shape parts n).isUnion = false) :
    (Schema.compound shape parts { n with properties := n.properties.merge added }).Fresh := by
  obtain ⟨⟨hproper, -⟩, hinside⟩ := Schema.everywhere_compound_iff.mp h
  refine Schema.everywhere_compound_iff.mpr ⟨⟨?_, trivial⟩, hinside⟩
  cases shape with
  | union _ => cases hu
  | array => exact ⟨hproper.1.merge added, hproper.2⟩
  | map => exact ⟨hproper.1.merge added, hproper.2⟩
  | logical k precision scale => exact ⟨hproper.1.merge added, hproper.2⟩

theorem annotated_gives (c : Context) (mark : TypeMark) {s : Schema} (h : Branch s) :
    (annotated c mark s).Gives Branch := by
  unfold annotated
  split
  · exact .pure h
  · refine .bind (.any _) fun set _ => ?_
    dsimp only
    cases s with
    | reference r =>
      obtain ⟨hname, hb⟩ := Schema.everywhere_reference_iff.mp h.fresh
      exact .bind (.any _) fun _ _ => .pure ⟨⟨Schema.fresh_reference hname hb, rfl⟩, rfl⟩
    | primitive p n =>
      obtain ⟨⟨hd, -⟩, -⟩ := Schema.everywhere_primitive_iff.mp h.fresh
      exact .pure ⟨⟨Schema.fresh_promote_primitive (hd.merge _),
        Schema.inner_promote_primitive p _⟩, Schema.isUnion_promote _ rfl⟩
    | compound shape parts n =>
      refine .pure ⟨⟨fresh_addProperties h.fresh h.simple, ?_⟩, ?_⟩
      · exact (Schema.isNamed_mapNote _ (.compound shape parts n)).trans h.inner
      · exact (Schema.isUnion_mapNote _ (.compound shape parts n)).trans h.simple
    | record head e fields => cases h.inner
    | enumeration head symbols d => cases h.inner
    | fixed head size => cases h.inner

theorem branch_placed (span : Span) {s : Schema} (h : Branch s) : Branch (placed span s) :=
  ⟨⟨h.fresh.mapNote rfl, (Schema.isNamed_mapNote _ s).trans h.inner⟩,
    (Schema.isUnion_mapNote _ s).trans h.simple⟩

theorem withMark_gives (c : Context) (mark : TypeMark) {s : Schema} (h : Branch s) :
    (withMark c mark s).Gives Part := by
  unfold withMark
  split
  · exact .pure h.toPart
  · split
    · exact .fail
    · next hnull =>
      refine .pure ⟨Schema.fresh_union rfl ?_ ?_, rfl⟩
      · intro p hp
        simp only [List.mem_cons, List.not_mem_nil, or_false] at hp
        rcases hp with rfl | rfl
        · exact branch_plain .null
        · exact h
      · have hkey : (Schema.plain .null).branchKey = Primitive.null.text := rfl
        simpa [hkey] using Ne.symm hnull

theorem finished_gives (c : Context) (mark : TypeMark) {s : Schema} (h : Branch s) :
    (finished c mark s).Gives Part :=
  .bind (annotated_gives c mark h) fun _ hs => withMark_gives c mark (branch_placed mark.span hs)

theorem checkBranch_gives (c : Context) (seen : List Text) (s : Schema) (span : Span) :
    (checkBranch c seen s span).Gives fun key =>
      key = s.branchKey ∧ s.isUnion = false ∧ s.branchKey ∉ seen := by
  unfold checkBranch
  dsimp only
  split
  · exact .fail
  · next hu =>
    split
    · exact .fail
    · next hseen => exact .pure ⟨rfl, by simpa using hu, by simpa using hseen⟩

mutual

theorem schemaOf_gives (c : Context) (depth : Nat) :
    (node : TypeNode) → (schemaOf c depth node).Gives Part
  | .primitive k m => by
    rw [schemaOf]
    split
    · exact .fail
    · split
      · next s hs => exact finished_gives c m (branch_keywordSchema hs)
      · exact .fail
  | .decimal precision scale m => by
    rw [schemaOf]
    split
    · exact .fail
    · exact .bind (decimalSchema_gives c precision scale m.span) fun s hs => finished_gives c m hs
  | .reference name m => by
    rw [schemaOf]
    split
    · exact .fail
    · exact finished_gives c m (branch_referenceTo c name)
  | .array items m => by
    rw [schemaOf]
    split
    · exact .fail
    · refine .bind (schemaOf_gives c (depth + 1) items) fun s hs => finished_gives c m ?_
      exact ⟨⟨Schema.fresh_container (.inl rfl) Members.distinct_nil hs.fresh hs.inner, rfl⟩, rfl⟩
  | .map values m => by
    rw [schemaOf]
    split
    · exact .fail
    · refine .bind (schemaOf_gives c (depth + 1) values) fun s hs => finished_gives c m ?_
      exact ⟨⟨Schema.fresh_container (.inr rfl) Members.distinct_nil hs.fresh hs.inner, rfl⟩, rfl⟩
  | .union branches m => by
    rw [schemaOf]
    split
    · exact .fail
    · refine .bind (branchesOf_gives c (depth + 1) [] branches) fun schemas hs => ?_
      exact .bind (.any _) fun _ _ => .pure ⟨Schema.fresh_union rfl hs.1 hs.2.1, rfl⟩

/-- The branches are different from each other and from those before them. -/
theorem branchesOf_gives (c : Context) (depth : Nat) (seen : List Text) :
    (nodes : List TypeNode) → (branchesOf c depth seen nodes).Gives fun schemas =>
      (∀ s ∈ schemas, Branch s) ∧ Unseen Schema.branchKey seen schemas
  | [] => by
    rw [branchesOf]
    exact .pure ⟨by simp, unseen_nil⟩
  | node :: nodes => by
    rw [branchesOf]
    refine .bind (schemaOf_gives c depth node) fun s hs => ?_
    refine .bind (checkBranch_gives c seen s _) fun key hkey => ?_
    obtain ⟨rfl, hsimple, hnew⟩ := hkey
    refine .bind (branchesOf_gives c depth (s.branchKey :: seen) nodes) fun rest hrest => ?_
    exact .pure ⟨List.forall_mem_cons.mpr ⟨⟨hs, hsimple⟩, hrest.1⟩, hrest.2.cons hnew⟩

end

theorem typeOf_gives (c : Context) (node : TypeNode) : (typeOf c node).Gives Part :=
  schemaOf_gives c 0 node

theorem headOf_yields (c : Context) (name : Identifier) (doc : Option Text) (as : List Annotation) :
    Yields (headOf c name doc as) fun p => p.2.properties.Distinct :=
  .bind (AnnotationSet.collect_yields c.file _ as) fun _ hset =>
    .bind (.any _) fun _ _ => .ok hset.distinct

theorem part_branchesFor (value : Json) {s : Schema} (h : Part s) : Part (branchesFor value s) := by
  unfold branchesFor
  split
  · exact h
  · next first second n _ =>
    obtain ⟨⟨⟨hn, hparts, hkeys⟩, -⟩, hinside⟩ := Schema.everywhere_compound_iff.mp h.fresh
    refine ⟨Schema.fresh_union hn ?_ ?_, rfl⟩
    · intro p hp
      have hp' : p ∈ [first, second] := by
        simp only [List.mem_cons, List.not_mem_nil, or_false] at hp ⊢
        exact hp.symm
      exact ⟨⟨hinside p hp', (hparts p hp').2⟩, (hparts p hp').1⟩
    · simp only [List.map_cons, List.map_nil, List.nodup_cons, List.mem_singleton,
        List.not_mem_nil, not_false_eq_true, List.nodup_nil, and_true] at hkeys ⊢
      exact Ne.symm hkeys
  · exact h

theorem defaultOf_gives (c : Context) (name owner : Text) {s : Schema} (h : Part s)
    (d : Option JsonNode) : (defaultOf c name owner s d).Gives fun p => Part p.1 := by
  cases d with
  | none => exact .pure h
  | some node =>
    refine .bind (.any _) fun value _ => ?_
    dsimp only
    split
    · exact .fail
    · exact .pure (part_branchesFor value h)

theorem fieldOf_gives (c : Context) (owner : Text) (type : TypeNode) (typeDoc : Option Text)
    (d : Declarator) : (fieldOf c owner type typeDoc d).Gives FieldOf.Fresh := by
  refine .bind (.ofExcept (AnnotationSet.collect_yields c.file _ d.annotations)) fun set hset => ?_
  dsimp only
  split
  · exact .fail
  · refine .bind (typeOf_gives c type) fun s hs => ?_
    exact .bind (defaultOf_gives c _ owner hs d.default) fun p hp => .pure ⟨hset.distinct, hp⟩

theorem declaratorFields_gives (c : Context) (owner : Text) (f : FieldDecl) (seen : List Text)
    (ds : List Declarator) : (declaratorFields c owner f seen ds).Gives (FreshFields seen) := by
  induction ds generalizing seen with
  | nil => exact .pure (freshFields_nil seen)
  | cons d ds ih =>
    refine .bind (fieldOf_gives c owner f.type f.doc d) fun field hfield => ?_
    split
    · exact .fail
    · next hnew =>
      exact .bind (ih (field.name :: seen)) fun rest hrest =>
        .pure (.cons hfield (by simpa using hnew) hrest)

theorem recordFields_gives (c : Context) (owner : Text) (seen : List Text) (fs : List FieldDecl) :
    (recordFields c owner seen fs).Gives (FreshFields seen) := by
  induction fs generalizing seen with
  | nil => exact .pure (freshFields_nil seen)
  | cons f fs ih =>
    refine .bind (declaratorFields_gives c owner f seen f.declarators) fun fields hfields => ?_
    refine .bind (ih _) fun rest hrest => .pure ⟨?_, hfields.unseen.append hrest.unseen⟩
    exact List.forall_mem_append.mpr ⟨hfields.fresh, hrest.fresh⟩

theorem recordOf_gives (c : Context) (d : RecordDecl) : (recordOf c d).Gives Schema.Fresh := by
  refine .bind (.ofExcept (headOf_yields c d.name d.doc d.annotations)) fun p hp => ?_
  obtain ⟨q, head⟩ := p
  refine .bind (recordFields_gives _ _ [] d.fields) fun fields hfields => ?_
  exact .pure (Schema.fresh_record hp hfields)

theorem symbolsOf_yields (c : Context) (enum : Text) (seen : List Text) (is : List Identifier) :
    Yields (symbolsOf c enum seen is) (Unseen id seen) := by
  induction is generalizing seen with
  | nil => exact .ok unseen_nil
  | cons i is ih =>
    rw [symbolsOf]
    split
    · exact .error
    · split
      · exact .error
      · next hnew =>
        exact .bind (ih (i.text :: seen)) fun rest hrest =>
          .ok (Unseen.cons (by simpa using hnew) hrest)

theorem enumOf_yields (c : Context) (d : EnumDecl) : Yields (enumOf c d) Schema.Fresh := by
  refine .bind (headOf_yields c d.name d.doc d.annotations) fun p hp => ?_
  obtain ⟨q, head⟩ := p
  refine .bind (symbolsOf_yields c _ [] d.symbols) fun symbols hsymbols => ?_
  have hfresh : ∀ default, Schema.Fresh (.enumeration head symbols default) := fun _ =>
    Schema.everywhere_enumeration_iff.mpr ⟨⟨hp, by simpa [Unseen] using hsymbols.1⟩, trivial⟩
  split
  · exact .ok (hfresh none)
  · split
    · exact .ok (hfresh _)
    · exact .error

theorem decodeUnsigned32_yields (what raw : Text) :
    Yields (Literal.decodeUnsigned32 what raw) fun n => n < pow2 32 := by
  refine .bind (.any _) fun n _ => ?_
  split
  · next h => exact .ok (by omega)
  · exact .error

theorem fixedOf_yields (c : Context) (d : FixedDecl) : Yields (fixedOf c d) Schema.Fresh := by
  refine .bind (headOf_yields c d.name d.doc d.annotations) fun p hp => ?_
  obtain ⟨q, head⟩ := p
  have hsize := decodeUnsigned32_yields "Fixed size" d.size
  dsimp only
  split
  · next size heq => exact .ok (Schema.fresh_promote_fixed hp (hsize size heq))
  · exact .error

theorem parametersOf_gives (c : Context) (owner : Text) (seen : List Text) (ps : List Parameter) :
    (parametersOf c owner seen ps).Gives (FreshFields seen) := by
  induction ps generalizing seen with
  | nil => exact .pure (freshFields_nil seen)
  | cons p ps ih =>
    refine .bind (fieldOf_gives c owner p.type none p.declarator) fun field hfield => ?_
    split
    · exact .fail
    · next hnew =>
      exact .bind (ih (field.name :: seen)) fun rest hrest =>
        .pure (.cons hfield (by simpa using hnew) hrest)

theorem responseOf_gives (c : Context) (name : Text) (isOneWay : Bool) (r : ResultType) :
    (responseOf c name isOneWay r).Gives Part := by
  cases r with
  | void span => exact .pure (branch_plain .null).toPart
  | value type =>
    rw [responseOf]
    split
    · exact .fail
    · exact typeOf_gives c type

theorem messageOf_gives (c : Context) (d : MessageDecl) : (messageOf c d).Gives Message.Fresh := by
  refine .bind (.ofExcept (AnnotationSet.collect_yields c.file {} d.annotations)) fun set hset => ?_
  dsimp only
  split
  · exact .fail
  · refine .bind (responseOf_gives c _ d.isOneWay d.result) fun response hresponse => ?_
    refine .bind (parametersOf_gives c _ [] d.parameters) fun request hrequest => .pure ?_
    refine Message.fresh_of_parts hset.distinct hrequest hresponse ?_
    intro s hs
    cases he : d.errors with
    | none => simp [he] at hs
    | some names =>
      simp only [he, Option.map_some, Option.getD_some, List.mem_map] at hs
      obtain ⟨name, -, rfl⟩ := hs
      exact (branch_referenceTo c name).toPart

end Build

end AvroIdl
