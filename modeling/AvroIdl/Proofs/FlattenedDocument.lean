import AvroIdl.Proofs.DocumentDefinitions
import AvroIdl.Proofs.NodeReading

/-!
# A document is flattened

A reader without problems so far gives a document or reports a problem, and never both or neither.
The types of the document are those that its definitions say, and where a definition stood, a
reference with its full name stands. Both are shown together, by induction on the levels.
-/
namespace AvroIdl.Document

variable {α β : Type}

/-- What is given has the property, and there is a problem if nothing is given. -/
structure Answers (x : Outcome α) (P : α → Prop) : Prop where
  gives : ∀ a, x = .ok a → P a
  reports : ∀ problems, x = .error problems → problems ≠ []

section Answers

variable {P : α → Prop} {Q : β → Prop} {x : Outcome α}

theorem answers_ok {a : α} (h : P a) : Answers (.ok a) P :=
  ⟨fun _ he => by cases he; exact h, nofun⟩

theorem answers_error {p : Problem} {ps : List Problem} : Answers (.error (p :: ps)) P :=
  ⟨nofun, fun _ he => by cases he; exact List.cons_ne_nil p ps⟩

theorem Answers.bind {f : α → Outcome β} (hx : Answers x P) (hf : ∀ a, P a → Answers (f a) Q) :
    Answers (x >>= f) Q := by
  cases x with
  | ok a => exact hf a (hx.gives a rfl)
  | error ps => exact ⟨nofun, fun _ he => by cases he; exact hx.reports ps rfl⟩

theorem Answers.mono {Q : α → Prop} (hx : Answers x P) (h : ∀ a, P a → Q a) : Answers x Q :=
  ⟨fun a ha => h a (hx.gives a ha), hx.reports⟩

end Answers

section Keys

variable (ms : Members) (key owner : Text)

theorem optionalString_fst : (optionalString ms key owner).1 = textAt ms key := by
  unfold optionalString textAt
  cases ms.get? key with
  | none => rfl
  | some value => cases value <;> rfl

theorem answers_proceed (problems : List Problem) :
    Answers (proceed true problems) fun _ => problems = [] := by
  cases problems with
  | nil => exact answers_ok rfl
  | cons p ps => exact answers_error

theorem answers_strings {problem : Problem} (elements : List Json) :
    Answers (elements.mapM fun e => match e with | .string s => .ok s | _ => .error [problem])
      (· = elements.filterMap Json.string?) := by
  induction elements with
  | nil => exact answers_ok rfl
  | cons e elements ih =>
    rw [List.mapM_cons]
    have hfirst : Answers (match e with | .string s => .ok s | _ => .error [problem])
        fun s => e.string? = some s := by
      cases e with
      | string s => exact answers_ok rfl
      | _ => exact answers_error
    refine hfirst.bind fun s hs => ih.bind fun ss hss => answers_ok ?_
    rw [List.filterMap_cons_some hs, hss]

theorem answers_stringArray : Answers (stringArray ms key owner) (· = textsAt ms key) := by
  unfold stringArray textsAt elementsAt
  cases ms.get? key with
  | none => exact answers_ok rfl
  | some value =>
    cases value with
    | array elements => exact answers_strings elements
    | _ => exact answers_error

end Keys

section Order

theorem answers_preceded {P : α → Prop} {x : Outcome α} (problems : List Problem)
    (hx : Answers x P) : Answers (preceded problems x) P := by
  cases x with
  | ok a => exact hx
  | error ps =>
    refine ⟨nofun, fun _ he => ?_⟩
    cases he
    simp [hx.reports ps rfl]

theorem answers_readOrder (ms : Members) (owner : Text) (problems : List Problem) :
    Answers (readOrder ms owner problems) (· = (textAt ms "order").bind FieldOrder.ofText?) := by
  unfold readOrder
  split
  · rw [← optionalString_fst ms "order" owner]
    dsimp only
    split
    · rename_i order horder
      exact answers_ok horder.symm
    · refine ⟨nofun, fun _ he => ?_⟩
      cases he
      simp
  · rename_i hcontains
    have hnone : ms.get? "order" = none := by simpa [Members.contains] using hcontains
    exact answers_ok (by simp [textAt, hnone])

end Order

/-- In the namespace, the reader gives what stands for a value and what its definitions say. -/
def Flattens (enclosing : Option Text) (one : Json → Outcome Converted) : Prop :=
  ∀ j, Answers (one j) fun c =>
    StandsFor enclosing j c.schema ∧ Lists (definitionsIn enclosing j) c.types

theorem Lists.append {ds es : List Definition} {ts us : List Schema} (h : Lists ds ts)
    (h' : Lists es us) : Lists (ds ++ es) (ts ++ us) := List.rel_append h h'

section Parts

variable {enclosing : Option Text} {one : Json → Outcome Converted}

theorem answers_readBranches (hone : Flattens enclosing one) (seen : List Text) (js : List Json) :
    Answers (readBranches one seen js) fun p => List.Forall₂ (StandsFor enclosing) js p.1 ∧
      Lists (js.flatMap (definitionsIn enclosing)) p.2 := by
  induction js generalizing seen with
  | nil => exact answers_ok ⟨.nil, .nil⟩
  | cons j js ih =>
    refine (hone j).bind fun branch hbranch => ?_
    split
    · exact answers_error
    · dsimp only
      split
      · exact answers_error
      · refine (ih _).bind fun rest hrest => answers_ok ⟨.cons hbranch.1 hrest.1, ?_⟩
        exact hbranch.2.append hrest.2

theorem answers_readField (hone : Flattens enclosing one) {name : Text} {ms : Members}
    (hname : ms.get? "name" = some (.string name)) :
    Answers (readField one name ms) fun p =>
      FieldFor enclosing (.object ms) p.1 ∧
        Lists (fieldDefinitions enclosing (.object ms)) p.2 := by
  unfold readField
  dsimp only
  split
  · exact answers_error
  · rename_i type htype
    refine (hone type).bind fun converted hconverted => ?_
    refine (answers_readOrder ms _ _).bind fun order horder => ?_
    refine (answers_preceded _ (answers_stringArray ms "aliases" _)).bind fun aliases haliases => ?_
    refine (answers_proceed _).bind fun _ _ => answers_ok ⟨?_, ?_⟩
    · rw [horder, haliases, optionalString_fst]
      exact .mk hname htype hconverted.1
    · rw [fieldDefinitions, definitionsAt_eq, htype]
      simpa using hconverted.2

theorem answers_readFieldList (hone : Flattens enclosing one) (seen : List Text) (js : List Json) :
    Answers (readFieldList one seen js) fun p => List.Forall₂ (FieldFor enclosing) js p.1 ∧
      Lists (js.flatMap (fieldDefinitions enclosing)) p.2 := by
  induction js generalizing seen with
  | nil => exact answers_ok ⟨.nil, .nil⟩
  | cons j js ih =>
    cases j with
    | object ms =>
      rw [readFieldList]
      split
      · rename_i name hname
        split
        · exact answers_error
        · refine (answers_readField hone hname).bind fun first hfirst => ?_
          refine (ih _).bind fun rest hrest => answers_ok ⟨.cons hfirst.1 hrest.1, ?_⟩
          exact hfirst.2.append hrest.2
      · exact answers_error
    | _ => exact answers_error

theorem answers_readFields (hone : Flattens enclosing one) {ms : Members} {key : Text} {j : Json}
    (hj : ms.get? key = some j) :
    Answers (readFields one j) fun p =>
      List.Forall₂ (FieldFor enclosing) (elementsAt ms key) p.1 ∧
        Lists ((elementsAt ms key).flatMap (fieldDefinitions enclosing)) p.2 := by
  unfold readFields
  split
  · rw [elementsAt_of_array hj]
    exact answers_readFieldList hone [] _
  · exact answers_error

theorem answers_readTypes (hone : Flattens enclosing one) (js : List Json) :
    Answers (readTypes one js) fun p => List.Forall₂ (StandsFor enclosing) js p.1 ∧
      Lists (js.flatMap (definitionsIn enclosing)) p.2 := by
  induction js with
  | nil => exact answers_ok ⟨.nil, .nil⟩
  | cons j js ih =>
    refine (hone j).bind fun first hfirst => ih.bind fun rest hrest => answers_ok ⟨?_, ?_⟩
    · exact .cons hfirst.1 hrest.1
    · exact hfirst.2.append hrest.2

end Parts

section Named

variable (d : Definition) (owner : Text)

theorem answers_readEnum (head : Head) :
    Answers (readEnum head owner d.members) fun s =>
      s = .enumeration { head with properties := d.members.without enumKeys }
        (textsAt d.members "symbols") (textAt d.members "default") := by
  unfold readEnum
  split
  · exact answers_error
  · refine (answers_stringArray _ _ _).bind fun symbols hsymbols => ?_
    split
    · exact answers_error
    · refine (answers_proceed _).bind fun _ _ => answers_ok ?_
      rw [hsymbols]
      exact congrArg (Schema.enumeration _ _) (optionalString_fst d.members "default" owner)

theorem answers_readFixed (head : Head) :
    Answers (readFixed head owner d.members) fun s => ∃ size < pow2 32,
      d.members.get? "size" = some (.integer size) ∧ s =
        (Schema.fixed { head with properties := d.members.without fixedKeys } size).promote := by
  unfold readFixed
  split
  · rename_i size hsize
    split
    · rename_i hrange
      refine answers_ok ⟨size.toNat, by omega, ?_, rfl⟩
      rw [hsize, Int.toNat_of_nonneg hrange.1]
    · exact answers_error
  · exact answers_error

theorem lists_cons {s : Schema} {ds : List Definition} {types : List Schema} (hs : d.Says s)
    (htypes : Lists ds types) : Lists (d :: ds) (s :: types) := by
  refine .cons ⟨hs, ?_⟩ htypes
  cases hs with
  | record word parts => exact ⟨d.full_head recordKeys, rfl⟩
  | enumeration word => exact ⟨d.full_head enumKeys, rfl⟩
  | fixed word size_lt size_eq =>
    rw [Schema.full_promote_fixed, Schema.isNamed_promote_fixed]
    exact ⟨d.full_head fixedKeys, rfl⟩

/-- What is read of a definition: a reference to it in its place, and its type before those of the
definitions inside it. -/
structure Definition.Leaves (c : Converted) : Prop where
  schema : c.schema = .reference { name := d.qualified.name, space := d.qualified.space }
  types : Lists (d :: d.inside) c.types

theorem answers_readNamed {fieldType : Option Text → Json → Outcome Converted}
    (hfield : ∀ e, Flattens e (fieldType e))
    (hname : d.members.get? "name" = some (.string d.name)) :
    Answers (readNamed true fieldType d.word d.enclosing d.members) d.Leaves := by
  have hqualified (owner : Text) : definedName d.name
      (if d.members.contains "namespace" = true then
        some (optionalString d.members "namespace" owner).1
      else none) d.enclosing = d.qualified := by
    rw [optionalString_fst]
    rfl
  unfold readNamed
  rw [hname]
  dsimp only
  rw [hqualified]
  refine (answers_proceed _).bind fun _ _ => ?_
  refine (answers_preceded _ (answers_stringArray d.members "aliases" _)).bind
    fun aliases haliases => (answers_proceed _).bind fun _ _ => ?_
  rw [haliases, optionalString_fst]
  have hleaf {s : Schema} (hfields : ¬(d.word = .record ∨ d.word = .error)) (hs : d.Says s) :
      d.Leaves ⟨.reference { name := d.qualified.name, space := d.qualified.space }, [s]⟩ := by
    refine ⟨rfl, lists_cons d hs ?_⟩
    rw [Definition.inside, if_neg hfields]
    exact .nil
  split
  · rename_i hword
    refine (answers_readEnum d _ _).bind fun s hs => answers_ok (hleaf (by simp [hword]) ?_)
    rw [hs]
    exact .enumeration hword
  · rename_i hword
    refine (answers_readFixed d _ _).bind fun s hs => answers_ok (hleaf (by simp [hword]) ?_)
    obtain ⟨size, hlt, hsize, rfl⟩ := hs
    exact .fixed hword hlt hsize
  -- Both words of records are read in the same way.
  all_goals
    rename_i hword
    split
    · exact answers_error
    · rename_i fields hfields
      have hrecord : d.word = .record ∨ d.word = .error := by simp [hword]
      refine (answers_readFields (hfield _) hfields).bind fun p hp => answers_ok ⟨rfl, ?_⟩
      refine lists_cons d (.record hrecord hp.1) ?_
      rw [Definition.inside, if_pos hrecord]
      exact hp.2

end Named

section Schemas

variable {enclosing : Option Text} {ms : Members}

theorem word_of_ofText? {t : Text} {w : Word} (h : Word.ofText? t = some w) : t = w.text := by
  have hb := List.find?_some h
  exact (beq_iff_eq.mp hb).symm

theorem answers_definition {fieldType : Option Text → Json → Outcome Converted}
    (hfield : ∀ e, Flattens e (fieldType e)) {word : Text} {w : Word}
    (htype : ms.get? "type" = some (.string word)) (hword : Word.ofText? word = some w) :
    Answers (readNamed true fieldType w enclosing ms) fun c =>
      StandsFor enclosing (.object ms) c.schema ∧
        Lists (definitionsIn enclosing (.object ms)) c.types := by
  by_cases hname : ∃ name, ms.get? "name" = some (.string name)
  · obtain ⟨name, hname⟩ := hname
    have htext : textAt ms "name" = some name := by simp [textAt, hname, Json.string?]
    let d : Definition := ⟨w, name, enclosing, ms⟩
    refine (answers_readNamed d hfield hname).mono fun c hc => ?_
    rw [hc.schema, definitionsIn_definition htype hword htext]
    exact ⟨.definition (word_of_ofText? hword ▸ htype) htext d.full_qualified, hc.types⟩
  · unfold readNamed
    split
    · exact absurd ⟨_, ‹_›⟩ hname
    · exact answers_error

theorem flattens_readSchema (levels : Nat) (enclosing : Option Text) :
    Flattens enclosing (readSchema true levels enclosing) := by
  induction levels using Nat.strongRecOn generalizing enclosing with
  | ind levels ih =>
    intro j
    cases levels with
    | zero => exact answers_error
    | succ levels =>
      have hbelow : Flattens enclosing (readSchema true levels enclosing) := ih levels (by omega) _
      have hfield : ∀ e, Flattens e (readSchema true (levels - 1) e) := ih _ (by omega)
      cases j with
      | string name =>
        rw [readSchema_string]
        exact answers_ok ⟨.name name, .nil⟩
      | array branches =>
        rw [readSchema_array]
        refine (answers_readBranches hbelow [] branches).bind fun p hp => ?_
        refine answers_ok ⟨.union hp.1, ?_⟩
        rw [definitionsIn_array]
        exact hp.2
      | object ms =>
        rw [readSchema_object]
        split
        · exact answers_error
        · rename_i word hword
          split
          · rename_i w hw
            exact answers_definition hfield hword hw
          · rename_i shape key hnone hcontainer
            split
            · exact answers_error
            · rename_i part hpart
              refine (hbelow part).bind fun inner hinner => answers_ok ⟨?_, ?_⟩
              · exact .container hword hcontainer hpart hinner.1
              · rw [definitionsIn_container hword hnone hcontainer hpart]
                exact hinner.2
          · rename_i hnone hcontainer
            refine answers_ok ⟨.named hword hnone hcontainer, ?_⟩
            rw [definitionsIn_named hword hnone hcontainer]
            exact .nil
        · rename_i type hnot htype
          have hstring : type.isString = false := by
            cases type with
            | string name => exact absurd rfl (hnot name)
            | _ => rfl
          refine (hbelow type).mono fun c hc => ⟨.inner htype hstring hc.1, ?_⟩
          rw [definitionsIn_inner htype hstring]
          exact hc.2
      | _ =>
        rw [readSchema_scalar true levels enclosing rfl]
        exact answers_error

end Schemas

section Protocols

variable (levels : Nat) (space : Option Text) (owner : Text) (ms : Members)

theorem answers_readErrors :
    Answers (readErrors levels space owner ms) fun p =>
      p.1.isSome = ms.contains "errors" ∧
        List.Forall₂ (StandsFor space) (elementsAt ms "errors") (p.1.getD []) ∧
        Lists ((elementsAt ms "errors").flatMap (definitionsIn space)) p.2 := by
  unfold readErrors
  split
  · rename_i hnone
    rw [elementsAt_of_none hnone]
    exact answers_ok ⟨by simp [Members.contains, hnone], .nil, .nil⟩
  · rename_i errors herrors
    rw [elementsAt_of_array herrors]
    refine (answers_readTypes (flattens_readSchema _ space) errors).bind fun p hp => ?_
    exact answers_ok ⟨by simp [Members.contains, herrors], hp.1, hp.2⟩
  · exact answers_error

theorem answers_readOneWay :
    Answers (readOneWay owner ms) fun b => (ms.get? "one-way").getD (.bool false) = .bool b := by
  unfold readOneWay
  split
  · rename_i hnone
    exact answers_ok (by rw [hnone]; rfl)
  · rename_i b hb
    exact answers_ok (by rw [hb]; rfl)
  · exact answers_error

theorem answers_readMessage (name : Text) :
    Answers (readMessage levels space name ms) fun p =>
      MessageFor space (name, .object ms) p.1 ∧
        Lists (messageDefinitions space (.object ms)) p.2 := by
  have hrequest : Answers (readRequest levels space name ms) fun p =>
      List.Forall₂ (FieldFor space) (elementsAt ms "request") p.1 ∧
        Lists ((elementsAt ms "request").flatMap (fieldDefinitions space)) p.2 := by
    unfold readRequest
    split
    · exact answers_error
    · rename_i request hrequest
      exact answers_readFields (flattens_readSchema _ space) hrequest
  have hresponse : Answers (readResponse levels space name ms) fun c =>
      ∃ type, ms.get? "response" = some type ∧ StandsFor space type c.schema ∧
        Lists (definitionsAt space "response" ms) c.types := by
    unfold readResponse
    split
    · exact answers_error
    · rename_i type htype
      refine (flattens_readSchema _ space type).mono fun c hc => ⟨type, htype, hc.1, ?_⟩
      simpa [definitionsAt_eq, htype] using hc.2
  unfold readMessage
  dsimp only
  refine (answers_proceed _).bind fun _ _ => hrequest.bind fun request hrequest => ?_
  refine hresponse.bind fun response hresponse => ?_
  obtain ⟨type, htype, hpart, htypes⟩ := hresponse
  refine (answers_readErrors _ _ _ _).bind fun errors herrors => ?_
  refine (answers_readOneWay _ _).bind fun isOneWay hone => answers_ok ⟨?_, ?_⟩
  · rw [optionalString_fst]
    exact .mk hrequest.1 htype hpart herrors.1 herrors.2.1 hone
  · exact (hrequest.2.append htypes).append herrors.2.2

theorem answers_readMessages :
    Answers (readMessages levels space ms) fun p =>
      List.Forall₂ (MessageFor space) ms p.1 ∧
        Lists (ms.flatMap fun m => messageDefinitions space m.2) p.2 := by
  induction ms with
  | nil => exact answers_ok ⟨.nil, .nil⟩
  | cons m ms ih =>
    obtain ⟨name, body⟩ := m
    cases body with
    | object inside =>
      refine (answers_readMessage levels space inside name).bind fun first hfirst => ?_
      refine ih.bind fun rest hrest => answers_ok ⟨.cons hfirst.1 hrest.1, ?_⟩
      exact hfirst.2.append hrest.2
    | _ => exact answers_error

theorem answers_protocolTypes :
    Answers (protocolTypes levels space owner ms) fun types =>
      Lists ((elementsAt ms "types").flatMap (definitionsIn space)) types := by
  unfold protocolTypes
  split
  · rename_i hnone
    rw [elementsAt_of_none hnone]
    exact answers_ok .nil
  · rename_i types htypes
    rw [elementsAt_of_array htypes]
    refine (answers_readTypes (flattens_readSchema _ space) types).bind fun p hp => ?_
    exact answers_ok hp.2
  · exact answers_error

theorem answers_protocolMessages :
    Answers (protocolMessages levels space owner ms) fun p =>
      List.Forall₂ (MessageFor space) (messagesAt ms) p.1 ∧
        Lists ((messagesAt ms).flatMap fun m => messageDefinitions space m.2) p.2 := by
  unfold protocolMessages
  split
  · rename_i hnone
    have hmessages : messagesAt ms = [] := by rw [messagesAt, hnone]
    rw [hmessages]
    exact answers_ok ⟨.nil, .nil⟩
  · rename_i messages hat
    have hmessages : messagesAt ms = messages := by rw [messagesAt, hat]
    rw [hmessages]
    exact answers_readMessages levels space messages
  · exact answers_error

end Protocols

theorem answers_ofSchema (j : Json) :
    Answers (ofSchema true j) fun d => d.messages = [] ∧ Lists (definitionsIn none j) d.types :=
  (flattens_readSchema fullLevels none j).bind fun _ hc => answers_ok ⟨rfl, hc.2⟩

theorem answers_ofProtocol (j : Json) :
    Answers (ofProtocol true j) fun d => ∃ ms, j = .object ms ∧
      Lists (protocolDefinitions ms) d.types ∧
        List.Forall₂ (MessageFor (protocolSpace ms)) (messagesAt ms) d.messages := by
  unfold ofProtocol
  cases j with
  | object ms =>
    rw [readProtocol]
    split
    · dsimp only
      rw [optionalString_fst]
      refine (answers_proceed _).bind fun _ _ => ?_
      refine (answers_protocolTypes _ _ _ _).bind fun types htypes => ?_
      refine (answers_protocolMessages _ _ _ _).bind fun p hp => ?_
      exact answers_ok ⟨ms, rfl, htypes.append hp.2, hp.1⟩
    · exact answers_error
  | _ => exact answers_error

/-- The problems that a reading reports. -/
def problemsOf : Outcome α → List Problem
  | .ok _ => []
  | .error problems => problems

theorem Answers.gives_iff {P : α → Prop} {x : Outcome α} (hx : Answers x P) :
    (∃ a, x = .ok a) ↔ problemsOf x = [] := by
  cases x with
  | ok a => simp [problemsOf]
  | error ps => simp [problemsOf, hx.reports ps rfl]

/-- A document is given exactly if no problem is reported. It has one type for every definition, in
the order in which these stand, and each is a complete one with the full name of its definition. In
the fields and messages a reference with that full name stands for every definition. -/
theorem flattened (j : Json) :
    ((∃ d, ofSchema true j = .ok d) ↔ problemsOf (ofSchema true j) = []) ∧
      ((∃ d, ofProtocol true j = .ok d) ↔ problemsOf (ofProtocol true j) = []) ∧
      (∀ d, ofSchema true j = .ok d → d.messages = [] ∧ Lists (definitionsIn none j) d.types) ∧
      ∀ d, ofProtocol true j = .ok d → ∃ ms, j = .object ms ∧
        Lists (protocolDefinitions ms) d.types ∧
          List.Forall₂ (MessageFor (protocolSpace ms)) (messagesAt ms) d.messages :=
  ⟨(answers_ofSchema j).gives_iff, (answers_ofProtocol j).gives_iff, (answers_ofSchema j).gives,
    (answers_ofProtocol j).gives⟩

/-- A record with an enum inside. -/
def outerRecord : Json :=
  .object [("type", .string "record"), ("name", .string "Outer"), ("namespace", .string "org"),
    ("fields", .array [.object [("name", .string "color"), ("type", .object
      [("type", .string "enum"), ("name", .string "Color"), ("symbols", .array [])])]])]

theorem flattened_outerRecord :
    ∃ d, ofSchema true outerRecord = .ok d ∧ Lists (definitionsIn none outerRecord) d.types ∧
      (definitionsIn none outerRecord).map Definition.full = ["org.Outer", "org.Color"] := by
  have hread : ∃ d, ofSchema true outerRecord = .ok d := (flattened outerRecord).1.mpr rfl
  obtain ⟨d, hd⟩ := hread
  exact ⟨d, hd, ((flattened outerRecord).2.2.1 d hd).2, by decide⟩

/-- A name with a dot in front. -/
def dottedRecord : Json :=
  .object [("type", .string "record"), ("name", .string ".A"), ("fields", .array [])]

/-- A name is not always its own full name if it has a dot. -/
theorem exists_dropped_dot :
    ∃ d s, ofSchema true dottedRecord = .ok d ∧ d.types = [s] ∧ Byte.dot ∈ (".A" : Text) ∧
      s.full ≠ (".A" : Text) :=
  ⟨_, _, rfl, rfl, by decide, by decide⟩

end AvroIdl.Document
