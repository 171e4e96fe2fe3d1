import AvroIdl.Document.Read
import AvroIdl.Proofs.Guarantee
import AvroIdl.Proofs.Shape

/-!
# The shape of what a document holds

The types and messages that are read from a tidy document have the shape of fresh schemas: every
definition is taken out and leaves a reference. The induction is on the levels of the reader.
-/
namespace AvroIdl.Document

open Schema (Part)

/-- What was read is fresh, and so are the types that were defined inside it. -/
structure Converted.Fresh (c : Converted) : Prop where
  schema : c.schema.Part
  types : ∀ t ∈ c.types, t.Fresh

/-- A reader that gives fresh types for tidy values. -/
def ReadsFresh (one : Json → Outcome Converted) : Prop :=
  ∀ j, j.Tidy → Yields (one j) Converted.Fresh

theorem readBranches_yields {one : Json → Outcome Converted} (hone : ReadsFresh one)
    (seen : List Text) {js : List Json} (hjs : ∀ j ∈ js, j.Tidy) :
    Yields (readBranches one seen js) fun p =>
      (∀ s ∈ p.1, s.Branch) ∧ Unseen Schema.branchKey seen p.1 ∧ ∀ t ∈ p.2, t.Fresh := by
  induction js generalizing seen with
  | nil => exact .ok ⟨by simp, unseen_nil, by simp⟩
  | cons j js ih =>
    obtain ⟨hj, hjs⟩ := List.forall_mem_cons.mp hjs
    refine .bind (hone j hj) fun branch hbranch => ?_
    split
    · exact .error
    · next hu =>
      dsimp only
      split
      · exact .error
      · next hnew =>
        refine .bind (ih _ hjs) fun rest hrest => .ok ⟨?_, ?_, ?_⟩
        · exact List.forall_mem_cons.mpr ⟨⟨hbranch.schema, by simpa using hu⟩, hrest.1⟩
        · exact hrest.2.1.cons (by simpa using hnew)
        · exact List.forall_mem_append.mpr ⟨hbranch.types, hrest.2.2⟩

theorem readField_yields {one : Json → Outcome Converted} (hone : ReadsFresh one) (name : Text)
    {ms : Members} (hms : Json.Tidy (.object ms)) :
    Yields (readField one name ms) fun p =>
      p.1.Fresh ∧ p.1.name = name ∧ ∀ t ∈ p.2, t.Fresh := by
  have hd : ms.Distinct := by cases hms; assumption
  unfold readField
  dsimp only
  split
  · exact .error
  · next type htype =>
    refine .bind (hone type (hms.get? htype)) fun converted hconverted => ?_
    refine .bind (.any _) fun order _ => ?_
    refine .bind (.any _) fun aliases _ => .bind (.any _) fun _ _ => ?_
    exact .ok ⟨⟨hd.without _, hconverted.schema⟩, rfl, hconverted.types⟩

theorem readFieldList_yields {one : Json → Outcome Converted} (hone : ReadsFresh one)
    (seen : List Text) {js : List Json} (hjs : ∀ j ∈ js, j.Tidy) :
    Yields (readFieldList one seen js) fun p => FreshFields seen p.1 ∧ ∀ t ∈ p.2, t.Fresh := by
  induction js generalizing seen with
  | nil => exact .ok ⟨freshFields_nil seen, by simp⟩
  | cons j js ih =>
    obtain ⟨hj, hrest⟩ := List.forall_mem_cons.mp hjs
    cases j with
    | object ms =>
      rw [readFieldList]
      split
      · next name _ =>
        split
        · exact .error
        · next hnew =>
          refine .bind (readField_yields hone name hj) fun p hp => ?_
          obtain ⟨hfresh, hname, htypes⟩ := hp
          refine .bind (ih (name :: seen) hrest) fun rest hfields => .ok ⟨.cons hfresh ?_ ?_, ?_⟩
          · rw [hname]
            simpa using hnew
          · rw [hname]
            exact hfields.1
          · exact List.forall_mem_append.mpr ⟨htypes, hfields.2⟩
      · exact .error
    | _ => exact .error

theorem readFields_yields {one : Json → Outcome Converted} (hone : ReadsFresh one) {j : Json}
    (hj : j.Tidy) :
    Yields (readFields one j) fun p => FreshFields [] p.1 ∧ ∀ t ∈ p.2, t.Fresh := by
  unfold readFields
  split
  · cases hj with
    | array inner => exact readFieldList_yields hone [] inner
  · exact .error

theorem nodup_of_firstRepeated {seen ts : List Text} (h : firstRepeated seen ts = none) :
    Unseen id seen ts := by
  induction ts generalizing seen with
  | nil => exact unseen_nil
  | cons t ts ih =>
    rw [firstRepeated] at h
    split at h
    · cases h
    · next hnew => exact .cons (by simpa using hnew) (ih h)

theorem readEnum_yields (head : Head) (owner : Text) {ms : Members} (hd : ms.Distinct) :
    Yields (readEnum head owner ms) Schema.Fresh := by
  unfold readEnum
  split
  · exact .error
  · refine .bind (.any _) fun symbols _ => ?_
    split
    · exact .error
    · next hnone =>
      have hsymbols : symbols.Nodup := by simpa [Unseen] using (nodup_of_firstRepeated hnone).1
      refine .bind (.any _) fun _ _ => .ok ?_
      exact Schema.everywhere_enumeration_iff.mpr ⟨⟨hd.without _, hsymbols⟩, trivial⟩

theorem readFixed_yields (head : Head) (owner : Text) {ms : Members} (hd : ms.Distinct) :
    Yields (readFixed head owner ms) Schema.Fresh := by
  unfold readFixed
  split
  · split
    · next h => exact .ok (Schema.fresh_promote_fixed (hd.without _) (by omega))
    · exact .error
  · exact .error

theorem dot_notMem_definedName (name : Text) (declared : Option (Option Text))
    (enclosing : Option Text) : Byte.dot ∉ (definedName name declared enclosing).name := by
  unfold definedName
  split
  · exact Scope.dot_notMem_qualify _ name
  · next h =>
    have hdot : Byte.dot ∉ name := by simpa using h
    split <;> exact hdot

theorem readNamed_yields {isClean : Bool} {fieldType : Option Text → Json → Outcome Converted}
    (hfield : ∀ e, ReadsFresh (fieldType e)) (word : Word) (enclosing : Option Text) {ms : Members}
    (hms : Json.Tidy (.object ms)) :
    Yields (readNamed isClean fieldType word enclosing ms) Converted.Fresh := by
  have hd : ms.Distinct := by cases hms; assumption
  unfold readNamed
  split
  · next name _ =>
    dsimp only
    have href : ∀ (q : QualifiedName), Byte.dot ∉ q.name →
        Part (.reference { name := q.name, space := q.space }) :=
      fun q hq => ⟨Schema.fresh_reference hq rfl, rfl⟩
    have hone : ∀ {s : Schema} (q : QualifiedName), Byte.dot ∉ q.name → s.Fresh →
        Converted.Fresh ⟨.reference { name := q.name, space := q.space }, [s]⟩ := by
      intro s q hq hs
      refine ⟨href q hq, ?_⟩
      intro t ht
      rw [List.mem_singleton.mp ht]
      exact hs
    have hq := dot_notMem_definedName name
      (if ms.contains "namespace" = true then
        some (optionalString ms "namespace" (word.text ++ " '" ++ name ++ "'")).1
      else none) enclosing
    refine .bind (.any _) fun _ _ => .bind (.any _) fun aliases _ => .bind (.any _) fun _ _ => ?_
    cases word with
    | enum => exact .bind (readEnum_yields _ _ hd) fun s hs => .ok (hone _ hq hs)
    | fixed => exact .bind (readFixed_yields _ _ hd) fun s hs => .ok (hone _ hq hs)
    | record =>
      dsimp only
      split
      · exact .error
      · next fields hfields =>
        refine .bind (readFields_yields (hfield _) (hms.get? hfields)) fun p hp => ?_
        refine .ok ⟨href _ hq, ?_⟩
        exact List.forall_mem_cons.mpr ⟨Schema.fresh_record (hd.without _) hp.1, hp.2⟩
    | error =>
      dsimp only
      split
      · exact .error
      · next fields hfields =>
        refine .bind (readFields_yields (hfield _) (hms.get? hfields)) fun p hp => ?_
        refine .ok ⟨href _ hq, ?_⟩
        exact List.forall_mem_cons.mpr ⟨Schema.fresh_record (hd.without _) hp.1, hp.2⟩
  · exact .error

theorem part_readName (enclosing : Option Text) (name : Text) {properties : Members}
    (hd : properties.Distinct) : Part (readName enclosing name properties) := by
  unfold readName
  split
  · exact ⟨Schema.fresh_promote_primitive hd, Schema.inner_promote_primitive _ _⟩
  · exact ⟨Schema.fresh_reference (Scope.dot_notMem_qualify _ name) rfl, rfl⟩

section Steps

variable (isClean : Bool) (levels : Nat) (enclosing : Option Text)

theorem readSchema_zero (j : Json) : readSchema isClean 0 enclosing j = .error [.tooDeep] := rfl

theorem readSchema_string (name : Text) :
    readSchema isClean (levels + 1) enclosing (.string name) =
      .ok ⟨readName enclosing name [], []⟩ := by
  cases levels <;> rfl

theorem readSchema_array (branches : List Json) :
    readSchema isClean (levels + 1) enclosing (.array branches) = (do
      let (schemas, types) ← readBranches (readSchema isClean levels enclosing) [] branches
      return ⟨.compound (.union false) schemas {}, types⟩) := by
  cases levels <;> rfl

/-- The reader of objects; the types of fields are read two levels below. -/
theorem readSchema_object (ms : Members) :
    readSchema isClean (levels + 1) enclosing (.object ms) =
      match ms.get? "type" with
      | none => .error [.noType (.object ms)]
      | some (.string word) =>
        match Word.ofText? word, containerOf? word with
        | some w, _ => readNamed isClean (readSchema isClean (levels - 1)) w enclosing ms
        | none, some (shape, key) =>
          match ms.get? key with
          | none => .error [.missingInType word key]
          | some part => do
            let inner ← readSchema isClean levels enclosing part
            return ⟨.compound shape [inner.schema] { properties := ms.without ["type", key] },
              inner.types⟩
        | none, none => .ok ⟨readName enclosing word (ms.without ["type"]), []⟩
      | some type => readSchema isClean levels enclosing type := by
  cases levels <;> rfl

theorem readSchema_scalar {j : Json}
    (hj : j matches .null | .bool _ | .integer _ | .float _) :
    readSchema isClean (levels + 1) enclosing j = .error [.notSchema j.typeName] := by
  cases j with
  | string | array | object => cases hj
  | _ => cases levels <;> rfl

end Steps

theorem containerOf?_eq_some {word key : Text} {shape : Shape}
    (h : containerOf? word = some (shape, key)) :
    word = "array" ∧ shape = .array ∧ key = "items" ∨
      word = "map" ∧ shape = .map ∧ key = "values" := by
  unfold containerOf? at h
  split at h
  · next hword =>
    cases h
    exact .inl ⟨hword, rfl, rfl⟩
  · split at h
    · next hword =>
      cases h
      exact .inr ⟨hword, rfl, rfl⟩
    · cases h

theorem readsFresh_readSchema (isClean : Bool) (levels : Nat) (enclosing : Option Text) :
    ReadsFresh (readSchema isClean levels enclosing) := by
  induction levels using Nat.strongRecOn generalizing enclosing with
  | ind levels ih =>
    intro j hj
    cases levels with
    | zero =>
      rw [readSchema_zero]
      exact .error
    | succ levels =>
      have hbelow : ∀ e, ReadsFresh (readSchema isClean levels e) := ih levels (by omega)
      have hfield : ∀ e, ReadsFresh (readSchema isClean (levels - 1) e) := ih _ (by omega)
      cases j with
      | string name =>
        rw [readSchema_string]
        exact .ok ⟨part_readName enclosing name Members.distinct_nil, by simp⟩
      | array branches =>
        rw [readSchema_array]
        cases hj with
        | array inner =>
          refine .bind (readBranches_yields (hbelow enclosing) [] inner) fun p hp => ?_
          exact .ok ⟨⟨Schema.fresh_union rfl hp.1 hp.2.1.1, rfl⟩, hp.2.2⟩
      | object ms =>
        have hd : Members.Distinct ms := by cases hj; assumption
        rw [readSchema_object]
        split
        · exact .error
        · next word _ =>
          split
          · exact readNamed_yields hfield _ enclosing hj
          · next shape key _ hshape =>
            split
            · exact .error
            · next part hpart =>
              have hcontainer : shape = .array ∨ shape = .map :=
                (containerOf?_eq_some hshape).imp (·.2.1) (·.2.1)
              refine .bind (hbelow enclosing part (hj.get? hpart)) fun inner hinner => ?_
              refine .ok ⟨⟨?_, ?_⟩, hinner.types⟩
              · exact Schema.fresh_container hcontainer (hd.without _) hinner.schema.fresh
                  hinner.schema.inner
              · rcases hcontainer with rfl | rfl <;> rfl
          · exact .ok ⟨part_readName enclosing word (hd.without _), by simp⟩
        · next type _ htype => exact hbelow enclosing type (hj.get? htype)
      | _ =>
        rw [readSchema_scalar isClean levels enclosing rfl]
        exact .error

theorem readTypes_yields {one : Json → Outcome Converted} (hone : ReadsFresh one) {js : List Json}
    (hjs : ∀ j ∈ js, j.Tidy) :
    Yields (readTypes one js) fun p => (∀ s ∈ p.1, s.Part) ∧ ∀ t ∈ p.2, t.Fresh := by
  induction js with
  | nil => exact .ok ⟨by simp, by simp⟩
  | cons j js ih =>
    obtain ⟨hj, hjs⟩ := List.forall_mem_cons.mp hjs
    refine .bind (hone j hj) fun c hc => .bind (ih hjs) fun rest hrest => .ok ⟨?_, ?_⟩
    · exact List.forall_mem_cons.mpr ⟨hc.schema, hrest.1⟩
    · exact List.forall_mem_append.mpr ⟨hc.types, hrest.2⟩

theorem readErrors_yields (levels : Nat) (space : Option Text) (owner : Text) {ms : Members}
    (hms : Json.Tidy (.object ms)) :
    Yields (readErrors levels space owner ms) fun p =>
      (∀ s ∈ p.1.getD [], s.Part) ∧ ∀ t ∈ p.2, t.Fresh := by
  unfold readErrors
  split
  · exact .ok ⟨by simp, by simp⟩
  · next errors h =>
    cases hms.get? h with
    | array inner =>
      exact .bind (readTypes_yields (readsFresh_readSchema true _ space) inner) fun p hp => .ok hp
  · exact .error

theorem readMessage_yields (levels : Nat) (space : Option Text) (name : Text) {ms : Members}
    (hms : Json.Tidy (.object ms)) :
    Yields (readMessage levels space name ms) fun p => p.1.Fresh ∧ ∀ t ∈ p.2, t.Fresh := by
  have hd : ms.Distinct := by cases hms; assumption
  have hread := fun levels => readsFresh_readSchema true levels space
  have hrequest : Yields (readRequest levels space name ms)
      fun p => FreshFields [] p.1 ∧ ∀ t ∈ p.2, t.Fresh := by
    unfold readRequest
    split
    · exact .error
    · next request h => exact readFields_yields (hread _) (hms.get? h)
  have hresponse : Yields (readResponse levels space name ms) Converted.Fresh := by
    unfold readResponse
    split
    · exact .error
    · next response h => exact hread _ response (hms.get? h)
  refine .bind (.any _) fun _ _ => .bind hrequest fun request hrequest => ?_
  refine .bind hresponse fun response hresponse => ?_
  refine .bind (readErrors_yields levels space _ hms) fun errors herrors => ?_
  refine .bind (.any _) fun isOneWay _ => .ok ⟨?_, ?_⟩
  · exact Message.fresh_of_parts (hd.without _) hrequest.1 hresponse.schema herrors.1
  · exact List.forall_mem_append.mpr
      ⟨List.forall_mem_append.mpr ⟨hrequest.2, hresponse.types⟩, herrors.2⟩

theorem readMessages_yields (levels : Nat) (space : Option Text) {ms : Members}
    (hms : ∀ m ∈ ms, Json.Tidy m.2) :
    Yields (readMessages levels space ms) fun p =>
      (∀ m ∈ p.1, m.Fresh) ∧ ∀ t ∈ p.2, t.Fresh := by
  induction ms with
  | nil => exact .ok ⟨by simp, by simp⟩
  | cons m ms ih =>
    obtain ⟨name, body⟩ := m
    obtain ⟨hbody, hrest⟩ := List.forall_mem_cons.mp hms
    cases body with
    | object inside =>
      refine .bind (readMessage_yields levels space name hbody) fun p hp => ?_
      refine .bind (ih hrest) fun rest hmessages => .ok ⟨?_, ?_⟩
      · exact List.forall_mem_cons.mpr ⟨hp.1, hmessages.1⟩
      · exact List.forall_mem_append.mpr ⟨hp.2, hmessages.2⟩
    | _ => exact .error

def Fresh (d : Document) : Prop := (∀ s ∈ d.types, s.Fresh) ∧ ∀ m ∈ d.messages, m.Fresh

theorem protocolTypes_yields (levels : Nat) (space : Option Text) (owner : Text) {ms : Members}
    (hms : Json.Tidy (.object ms)) :
    Yields (protocolTypes levels space owner ms) fun types => ∀ s ∈ types, s.Fresh := by
  unfold protocolTypes
  split
  · exact .ok (by simp)
  · next types h =>
    cases hms.get? h with
    | array inner =>
      exact .bind (readTypes_yields (readsFresh_readSchema true _ space) inner) fun p hp => .ok hp.2
  · exact .error

theorem protocolMessages_yields (levels : Nat) (space : Option Text) (owner : Text) {ms : Members}
    (hms : Json.Tidy (.object ms)) :
    Yields (protocolMessages levels space owner ms) fun p =>
      (∀ m ∈ p.1, m.Fresh) ∧ ∀ t ∈ p.2, t.Fresh := by
  unfold protocolMessages
  split
  · exact .ok ⟨by simp, by simp⟩
  · next messages h =>
    cases hms.get? h with
    | object _ inner => exact readMessages_yields levels space inner
  · exact .error

theorem readProtocol_yields (isClean : Bool) (levels : Nat) {j : Json} (hj : j.Tidy) :
    Yields (readProtocol isClean levels j) Fresh := by
  cases j with
  | object ms =>
    rw [readProtocol]
    split
    · refine .bind (.any _) fun _ _ => ?_
      refine .bind (protocolTypes_yields levels _ _ hj) fun types htypes => ?_
      refine .bind (protocolMessages_yields levels _ _ hj) fun p hp => .ok ⟨?_, hp.1⟩
      exact List.forall_mem_append.mpr ⟨htypes, hp.2⟩
    · exact .error
  | _ => exact .error

theorem ofSchema_yields (isClean : Bool) {j : Json} (hj : j.Tidy) :
    Yields (ofSchema isClean j) Fresh :=
  .bind (readsFresh_readSchema isClean fullLevels none j hj) fun _ h => .ok ⟨h.types, by simp⟩

end AvroIdl.Document
