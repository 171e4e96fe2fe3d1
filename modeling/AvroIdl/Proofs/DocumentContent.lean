import AvroIdl.Proofs.ReadShape

/-!
# What a document is made of

However deep a definition stands in a document, it was read as a record, an enum or a fixed type,
and every message of a protocol was read as one. What holds of all of these therefore holds of all
types and messages of a document.
-/
namespace AvroIdl.Document

/-- What holds of every definition and message that can be read, whatever is read inside it. -/
structure Supply (P : Schema → Prop) (Q : Message → Prop) : Prop where
  record : ∀ one j, Yields (readFields one j) fun p => ∀ (head : Head) (isError : Bool) ms,
    head.properties = Members.without ms recordKeys → P (.record head isError p.1)
  enum : ∀ head owner ms, Yields (readEnum head owner ms) P
  fixed : ∀ head owner ms, Yields (readFixed head owner ms) P
  message : ∀ levels space name ms, Yields (readMessage levels space name ms) fun p => Q p.1

/-- The types that are defined in what is read have the property. -/
abbrev Supplies (P : Schema → Prop) (one : Json → Outcome Converted) : Prop :=
  ∀ j, Yields (one j) fun c => ∀ t ∈ c.types, P t

section Parts

variable {P : Schema → Prop} {one : Json → Outcome Converted} (hone : Supplies P one)

include hone

theorem readBranches_supplies (seen : List Text) (js : List Json) :
    Yields (readBranches one seen js) fun p => ∀ t ∈ p.2, P t := by
  induction js generalizing seen with
  | nil => exact .ok (by simp)
  | cons j js ih =>
    refine .bind (hone j) fun branch hbranch => ?_
    split
    · exact .error
    · dsimp only
      split
      · exact .error
      · exact .bind (ih _) fun rest hrest => .ok (List.forall_mem_append.mpr ⟨hbranch, hrest⟩)

theorem readField_supplies (name : Text) (ms : Members) :
    Yields (readField one name ms) fun p => ∀ t ∈ p.2, P t := by
  unfold readField
  dsimp only
  split
  · exact .error
  · next type _ =>
    refine .bind (hone type) fun converted hconverted => .bind (.any _) fun order _ => ?_
    exact .bind (.any _) fun aliases _ => .bind (.any _) fun _ _ => .ok hconverted

theorem readFieldList_supplies (seen : List Text) (js : List Json) :
    Yields (readFieldList one seen js) fun p => ∀ t ∈ p.2, P t := by
  induction js generalizing seen with
  | nil => exact .ok (by simp)
  | cons j js ih =>
    cases j with
    | object ms =>
      rw [readFieldList]
      split
      · next name _ =>
        split
        · exact .error
        · refine .bind (readField_supplies hone name ms) fun p hp => ?_
          exact .bind (ih _) fun rest hrest => .ok (List.forall_mem_append.mpr ⟨hp, hrest⟩)
      · exact .error
    | _ => exact .error

theorem readFields_supplies (j : Json) :
    Yields (readFields one j) fun p => ∀ t ∈ p.2, P t := by
  unfold readFields
  split
  · exact readFieldList_supplies hone [] _
  · exact .error

theorem readTypes_supplies (js : List Json) :
    Yields (readTypes one js) fun p => ∀ t ∈ p.2, P t := by
  induction js with
  | nil => exact .ok (by simp)
  | cons j js ih =>
    exact .bind (hone j) fun c hc => .bind ih fun rest hrest =>
      .ok (List.forall_mem_append.mpr ⟨hc, hrest⟩)

end Parts

section Fields

variable {R : Field → Prop} (hR : ∀ one name ms, Yields (readField one name ms) fun p => R p.1)
  (one : Json → Outcome Converted)

include hR

theorem readFieldList_gives_all (seen : List Text) (js : List Json) :
    Yields (readFieldList one seen js) fun p => ∀ f ∈ p.1, R f := by
  induction js generalizing seen with
  | nil => exact .ok (by simp)
  | cons j js ih =>
    cases j with
    | object ms =>
      rw [readFieldList]
      split
      · next name _ =>
        split
        · exact .error
        · refine .bind (hR one name ms) fun p hp => ?_
          exact .bind (ih _) fun rest hrest => .ok (List.forall_mem_cons.mpr ⟨hp, hrest⟩)
      · exact .error
    | _ => exact .error

/-- What holds of every field that can be read holds of all fields of a list. -/
theorem readFields_gives_all (j : Json) :
    Yields (readFields one j) fun p => ∀ f ∈ p.1, R f := by
  unfold readFields
  split
  · exact readFieldList_gives_all hR one [] _
  · exact .error

end Fields

namespace Supply

variable {P : Schema → Prop} {Q : Message → Prop} (h : Supply P Q)

include h

theorem readNamed {isClean : Bool} {fieldType : Option Text → Json → Outcome Converted}
    (hfield : ∀ e, Supplies P (fieldType e)) (word : Word) (enclosing : Option Text)
    (ms : Members) :
    Yields (readNamed isClean fieldType word enclosing ms) fun c => ∀ t ∈ c.types, P t := by
  unfold Document.readNamed
  split
  · dsimp only
    refine .bind (.any _) fun _ _ => .bind (.any _) fun aliases _ => .bind (.any _) fun _ _ => ?_
    have hfields : ∀ space fields, Yields (readFields (fieldType space) fields) fun p =>
        (∀ (head : Head) (isError : Bool) ms, head.properties = Members.without ms recordKeys →
          P (.record head isError p.1)) ∧ ∀ t ∈ p.2, P t := fun space fields p hp =>
      ⟨h.record _ fields p hp, readFields_supplies (hfield space) fields p hp⟩
    cases word with
    | enum => exact .bind (h.enum _ _ _) fun s hs => .ok (by simpa using hs)
    | fixed => exact .bind (h.fixed _ _ _) fun s hs => .ok (by simpa using hs)
    | record | error =>
      dsimp only
      split
      · exact .error
      · refine .bind (hfields _ _) fun p hp => .ok ?_
        exact List.forall_mem_cons.mpr ⟨hp.1 _ _ ms rfl, hp.2⟩
  · exact .error

theorem readSchema (isClean : Bool) (levels : Nat) (enclosing : Option Text) :
    Supplies P (readSchema isClean levels enclosing) := by
  induction levels using Nat.strongRecOn generalizing enclosing with
  | ind levels ih =>
    intro j
    cases levels with
    | zero =>
      rw [readSchema_zero]
      exact .error
    | succ levels =>
      have hbelow : ∀ e, Supplies P (Document.readSchema isClean levels e) := ih levels (by omega)
      cases j with
      | string name =>
        rw [readSchema_string]
        exact .ok (by simp)
      | array branches =>
        rw [readSchema_array]
        exact .bind (readBranches_supplies (hbelow enclosing) [] branches) fun p hp => .ok hp
      | object ms =>
        rw [readSchema_object]
        split
        · exact .error
        · next word _ =>
          split
          · exact h.readNamed (ih _ (by omega)) _ enclosing ms
          · split
            · exact .error
            · exact .bind (hbelow enclosing _) fun inner hinner => .ok hinner
          · exact .ok (by simp)
        · next type _ _ => exact hbelow enclosing type
      | _ =>
        rw [readSchema_scalar isClean levels enclosing rfl]
        exact .error

theorem readMessage (levels : Nat) (space : Option Text) (name : Text) (ms : Members) :
    Yields (readMessage levels space name ms) fun p => Q p.1 ∧ ∀ t ∈ p.2, P t := by
  have hrequest : Yields (readRequest levels space name ms) fun p => ∀ t ∈ p.2, P t := by
    unfold readRequest
    split
    · exact .error
    · exact readFields_supplies (h.readSchema true _ space) _
  have hresponse : Yields (readResponse levels space name ms) fun c => ∀ t ∈ c.types, P t := by
    unfold readResponse
    split
    · exact .error
    · exact h.readSchema true _ space _
  have herrors : ∀ owner, Yields (readErrors levels space owner ms) fun p => ∀ t ∈ p.2, P t := by
    intro owner
    unfold readErrors
    split
    · exact .ok (by simp)
    · exact .bind (readTypes_supplies (h.readSchema true _ space) _) fun p hp => .ok hp
    · exact .error
  have htypes : Yields (Document.readMessage levels space name ms) fun p => ∀ t ∈ p.2, P t := by
    refine .bind (.any _) fun _ _ => .bind hrequest fun request hrequest => ?_
    refine .bind hresponse fun response hresponse => .bind (herrors _) fun errors herrors => ?_
    refine .bind (.any _) fun isOneWay _ => .ok ?_
    exact List.forall_mem_append.mpr ⟨List.forall_mem_append.mpr ⟨hrequest, hresponse⟩, herrors⟩
  exact fun p hp => ⟨h.message levels space name ms p hp, htypes p hp⟩

theorem readMessages (levels : Nat) (space : Option Text) (ms : Members) :
    Yields (readMessages levels space ms) fun p => (∀ m ∈ p.1, Q m) ∧ ∀ t ∈ p.2, P t := by
  induction ms with
  | nil => exact .ok ⟨by simp, by simp⟩
  | cons m ms ih =>
    obtain ⟨name, body⟩ := m
    cases body with
    | object inside =>
      refine .bind (h.readMessage levels space name inside) fun p hp => ?_
      refine .bind ih fun rest hrest => .ok ⟨?_, ?_⟩
      · exact List.forall_mem_cons.mpr ⟨hp.1, hrest.1⟩
      · exact List.forall_mem_append.mpr ⟨hp.2, hrest.2⟩
    | _ => exact .error

/-- Types and messages of a protocol document. -/
theorem ofProtocol (isClean : Bool) (j : Json) :
    Yields (ofProtocol isClean j) fun d => (∀ s ∈ d.types, P s) ∧ ∀ m ∈ d.messages, Q m := by
  have htypes : ∀ space owner ms,
      Yields (protocolTypes fullLevels space owner ms) fun types => ∀ t ∈ types, P t := by
    intro space owner ms
    unfold protocolTypes
    split
    · exact .ok (by simp)
    · exact .bind (readTypes_supplies (h.readSchema true _ space) _) fun p hp => .ok hp
    · exact .error
  have hmessages : ∀ space owner ms, Yields (protocolMessages fullLevels space owner ms)
      fun p => (∀ m ∈ p.1, Q m) ∧ ∀ t ∈ p.2, P t := by
    intro space owner ms
    unfold protocolMessages
    split
    · exact .ok ⟨by simp, by simp⟩
    · exact h.readMessages fullLevels space _
    · exact .error
  unfold Document.ofProtocol
  cases j with
  | object ms =>
    rw [readProtocol]
    split
    · refine .bind (.any _) fun _ _ => .bind (htypes _ _ ms) fun types htypes => ?_
      refine .bind (hmessages _ _ ms) fun p hp => .ok ⟨?_, hp.1⟩
      exact List.forall_mem_append.mpr ⟨htypes, hp.2⟩
    · exact .error
  | _ => exact .error

/-- Types of a schema document, which has no messages. -/
theorem ofSchema (isClean : Bool) (j : Json) :
    Yields (ofSchema isClean j) fun d => (∀ s ∈ d.types, P s) ∧ ∀ m ∈ d.messages, Q m :=
  .bind (h.readSchema isClean fullLevels none j) fun _ hread => .ok ⟨hread, by simp⟩

end Supply

end AvroIdl.Document
