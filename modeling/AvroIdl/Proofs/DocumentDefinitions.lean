import AvroIdl.Proofs.FullNames
import AvroIdl.Proofs.Members
import Mathlib.Data.List.Forall2

/-!
# The definitions in a document

What a document defines can be told without reading it. The definitions of named types stand at the
places of types; their list has an enclosing one before those inside it. Where a definition stands,
a reference takes its place.
-/
namespace AvroIdl.Document

/-- The string at a key, if there is one. -/
def textAt (ms : Members) (key : Text) : Option Text := (ms.get? key).bind Json.string?

/-- The values listed at a key. -/
def elementsAt (ms : Members) (key : Text) : List Json :=
  match ms.get? key with
  | some (.array elements) => elements
  | _ => []

theorem elementsAt_of_none {ms : Members} {key : Text} (h : ms.get? key = none) :
    elementsAt ms key = [] := by rw [elementsAt, h]

theorem elementsAt_of_array {ms : Members} {key : Text} {elements : List Json}
    (h : ms.get? key = some (.array elements)) : elementsAt ms key = elements := by
  rw [elementsAt, h]

/-- The strings listed at a key. -/
def textsAt (ms : Members) (key : Text) : List Text := (elementsAt ms key).filterMap Json.string?

/-- The definition of a named type where it stands. -/
structure Definition where
  word : Word
  /-- The name as it is written. -/
  name : Text
  /-- The namespace in force around it. -/
  enclosing : Option Text
  members : Members

namespace Definition

variable (d : Definition)

/-- The namespace that it declares, if it declares one; null is no namespace. -/
def declared? : Option (Option Text) :=
  if d.members.contains "namespace" then some (textAt d.members "namespace") else none

/-- The full name. A dotted name is its own, but a dot in front of it is dropped if it is the only
one. Any other name is taken in the declared namespace or else in the enclosing one. -/
def full : Text :=
  if Byte.dot ∈ d.name then
    if Byte.dot ∈ d.name.tail then d.name else d.name.tail
  else fullName d.name (d.declared?.getD d.enclosing)

/-- The name without its namespace, and the namespace in force inside. -/
def qualified : QualifiedName := definedName d.name d.declared? d.enclosing

theorem full_qualified : fullName d.qualified.name d.qualified.space = d.full := by
  unfold qualified full definedName
  by_cases hdot : Byte.dot ∈ d.name
  · rw [if_pos (by simpa using hdot), if_pos hdot]
    obtain ⟨before, last, hname, hlast⟩ := Scope.exists_append_of_dot_mem hdot
    rw [hname, Scope.qualify_append _ before hlast]
    cases before with
    | nil =>
      rw [List.nil_append, List.tail_cons, if_neg hlast]
      exact fullName_of_none rfl
    | cons b before =>
      rw [if_pos (by simp)]
      exact full_of_some last (b :: before)
  · rw [if_neg (by simpa using hdot), if_neg hdot]
    cases d.declared? with
    | none => rfl
    | some space => simp [fullName]

def head (keys : List Text) : Head :=
  { name := d.qualified.name, space := d.qualified.space, doc := textAt d.members "doc",
    aliases := textsAt d.members "aliases", properties := d.members.without keys }

theorem full_head (keys : List Text) : (d.head keys).full = d.full := d.full_qualified

end Definition

mutual

/-- The definitions in a value that stands for a type. -/
def definitionsIn (enclosing : Option Text) : Json → List Definition
  | .array branches => definitionsOfAll enclosing branches
  | .object ms =>
    match Members.get? ms "type" with
    | none => []
    | some (.string word) =>
      match Word.ofText? word, containerOf? word with
      | some w, _ =>
        match textAt ms "name" with
        | none => []
        | some name =>
          let d : Definition := ⟨w, name, enclosing, ms⟩
          d :: if w = .record ∨ w = .error then definitionsOfFields d.qualified.space ms else []
      | none, some (_, key) => definitionsAt enclosing key ms
      | none, none => []
    | some _ => definitionsAt enclosing "type" ms
  | _ => []

def definitionsOfAll (enclosing : Option Text) : List Json → List Definition
  | [] => []
  | j :: js => definitionsIn enclosing j ++ definitionsOfAll enclosing js

/-- The definitions in the value at a key. -/
def definitionsAt (enclosing : Option Text) (key : Text) : List (Text × Json) → List Definition
  | [] => []
  | (k, j) :: ms => if key = k then definitionsIn enclosing j else definitionsAt enclosing key ms

/-- The definitions in the fields of a record. -/
def definitionsOfFields (enclosing : Option Text) : List (Text × Json) → List Definition
  | [] => []
  | (k, .array entries) :: ms =>
    if "fields" = k then definitionsOfEntries enclosing entries
    else definitionsOfFields enclosing ms
  | (k, _) :: ms => if "fields" = k then [] else definitionsOfFields enclosing ms

def definitionsOfEntries (enclosing : Option Text) : List Json → List Definition
  | [] => []
  | .object ms :: entries =>
    definitionsAt enclosing "type" ms ++ definitionsOfEntries enclosing entries
  | _ :: entries => definitionsOfEntries enclosing entries

end

section Keys

variable {enclosing : Option Text}

theorem definitionsOfAll_eq (js : List Json) :
    definitionsOfAll enclosing js = js.flatMap (definitionsIn enclosing) := by
  induction js with
  | nil => rfl
  | cons j js ih => rw [definitionsOfAll, ih, List.flatMap_cons]

theorem definitionsAt_eq (key : Text) (ms : Members) :
    definitionsAt enclosing key ms = (ms.get? key).toList.flatMap (definitionsIn enclosing) := by
  induction ms with
  | nil => rfl
  | cons m ms ih =>
    obtain ⟨k, j⟩ := m
    rw [definitionsAt, Members.get?_cons]
    split
    · simp
    · exact ih

/-- The definitions in the type of a field or parameter. -/
def fieldDefinitions (enclosing : Option Text) : Json → List Definition
  | .object ms => definitionsAt enclosing "type" ms
  | _ => []

theorem definitionsOfEntries_eq (entries : List Json) :
    definitionsOfEntries enclosing entries = entries.flatMap (fieldDefinitions enclosing) := by
  induction entries with
  | nil => rfl
  | cons entry entries ih =>
    cases entry with
    | object ms => rw [definitionsOfEntries, ih, List.flatMap_cons, fieldDefinitions]
    | _ => simpa [definitionsOfEntries, fieldDefinitions] using ih

theorem definitionsOfFields_eq (ms : Members) :
    definitionsOfFields enclosing ms =
      (elementsAt ms "fields").flatMap (fieldDefinitions enclosing) := by
  induction ms with
  | nil => rfl
  | cons m ms ih =>
    obtain ⟨k, j⟩ := m
    rw [elementsAt, Members.get?_cons]
    cases j with
    | array entries =>
      rw [definitionsOfFields]
      split
      · exact definitionsOfEntries_eq entries
      · exact ih
    | _ =>
      rw [definitionsOfFields]
      · split
        · rfl
        · exact ih
      · simp

end Keys

/-- The definitions inside one. -/
def Definition.inside (d : Definition) : List Definition :=
  if d.word = .record ∨ d.word = .error then
    (elementsAt d.members "fields").flatMap (fieldDefinitions d.qualified.space)
  else []

section Places

variable {enclosing : Option Text} {ms : Members} {word key : Text} {shape : Shape} {type : Json}

theorem definitionsIn_array (js : List Json) :
    definitionsIn enclosing (.array js) = js.flatMap (definitionsIn enclosing) := by
  rw [definitionsIn, definitionsOfAll_eq]

theorem definitionsIn_definition {w : Word} {name : Text}
    (htype : ms.get? "type" = some (.string word)) (hword : Word.ofText? word = some w)
    (hname : textAt ms "name" = some name) :
    definitionsIn enclosing (.object ms) =
      ⟨w, name, enclosing, ms⟩ :: Definition.inside ⟨w, name, enclosing, ms⟩ := by
  simp only [definitionsIn, htype, hword, hname, definitionsOfFields_eq]
  rfl

theorem definitionsIn_container (htype : ms.get? "type" = some (.string word))
    (hword : Word.ofText? word = none) (hcontainer : containerOf? word = some (shape, key))
    (hpart : ms.get? key = some type) :
    definitionsIn enclosing (.object ms) = definitionsIn enclosing type := by
  simp [definitionsIn, htype, hword, hcontainer, definitionsAt_eq, hpart]

theorem definitionsIn_named (htype : ms.get? "type" = some (.string word))
    (hword : Word.ofText? word = none) (hcontainer : containerOf? word = none) :
    definitionsIn enclosing (.object ms) = [] := by
  simp [definitionsIn, htype, hword, hcontainer]

theorem definitionsIn_inner (htype : ms.get? "type" = some type) (hnot : type.isString = false) :
    definitionsIn enclosing (.object ms) = definitionsIn enclosing type := by
  have hat : definitionsAt enclosing "type" ms = definitionsIn enclosing type := by
    simp [definitionsAt_eq, htype]
  cases type with
  | string => cases hnot
  | _ => simp only [definitionsIn, htype, hat]

end Places

/-- What stands for a value once the definitions in it are taken out. -/
inductive StandsFor : (enclosing : Option Text) → Json → Schema → Prop
  | name {enclosing : Option Text} (name : Text) :
    StandsFor enclosing (.string name) (readName enclosing name [])
  | union {enclosing : Option Text} {js : List Json} {branches : List Schema}
      (parts : List.Forall₂ (StandsFor enclosing) js branches) :
    StandsFor enclosing (.array js) (.compound (.union false) branches {})
  | inner {enclosing : Option Text} {ms : Members} {type : Json} {s : Schema}
      (type_eq : ms.get? "type" = some type) (notWord : type.isString = false)
      (part : StandsFor enclosing type s) : StandsFor enclosing (.object ms) s
  | definition {enclosing : Option Text} {ms : Members} {w : Word} {name : Text}
      {q : QualifiedName} (type_eq : ms.get? "type" = some (.string w.text))
      (name_eq : textAt ms "name" = some name)
      (full_eq : fullName q.name q.space = Definition.full ⟨w, name, enclosing, ms⟩) :
    StandsFor enclosing (.object ms) (.reference { name := q.name, space := q.space })
  | container {enclosing : Option Text} {ms : Members} {word key : Text} {shape : Shape}
      {type : Json} {s : Schema} (type_eq : ms.get? "type" = some (.string word))
      (container_eq : containerOf? word = some (shape, key)) (part_eq : ms.get? key = some type)
      (part : StandsFor enclosing type s) :
    StandsFor enclosing (.object ms)
      (.compound shape [s] { properties := ms.without ["type", key] })
  | named {enclosing : Option Text} {ms : Members} {word : Text}
      (type_eq : ms.get? "type" = some (.string word)) (notDefinition : Word.ofText? word = none)
      (notContainer : containerOf? word = none) :
    StandsFor enclosing (.object ms) (readName enclosing word (ms.without ["type"]))

/-- A field or parameter as it stands in a list, once its type has lost the definitions in it. -/
inductive FieldFor (enclosing : Option Text) : Json → Field → Prop
  | mk {ms : Members} {name : Text} {type : Json} {s : Schema}
      (name_eq : ms.get? "name" = some (.string name)) (type_eq : ms.get? "type" = some type)
      (part : StandsFor enclosing type s) :
    FieldFor enclosing (.object ms)
      { name := name, type := s, doc := textAt ms "doc", default := ms.get? "default",
        order := (textAt ms "order").bind FieldOrder.ofText?, aliases := textsAt ms "aliases",
        properties := ms.without fieldKeys }

/-- The type that a definition says. -/
inductive Definition.Says (d : Definition) : Schema → Prop
  | record {fields : List Field} (word : d.word = .record ∨ d.word = .error)
      (parts : List.Forall₂ (FieldFor d.qualified.space) (elementsAt d.members "fields") fields) :
    Says d (.record (d.head recordKeys) (d.word = .error) fields)
  | enumeration (word : d.word = .enum) :
    Says d
      (.enumeration (d.head enumKeys) (textsAt d.members "symbols") (textAt d.members "default"))
  | fixed {size : Nat} (word : d.word = .fixed) (size_lt : size < pow2 32)
      (size_eq : d.members.get? "size" = some (.integer size)) :
    Says d (Schema.fixed (d.head fixedKeys) size).promote

/-- A message as it stands in a protocol, once its types have lost the definitions in them. -/
inductive MessageFor (space : Option Text) : Text × Json → Message → Prop
  | mk {name : Text} {ms : Members} {request : List Field} {type : Json} {response : Schema}
      {errors : Option (List Schema)} {isOneWay : Bool}
      (request_eq : List.Forall₂ (FieldFor space) (elementsAt ms "request") request)
      (response_eq : ms.get? "response" = some type) (part : StandsFor space type response)
      (declares : errors.isSome = ms.contains "errors")
      (errors_eq : List.Forall₂ (StandsFor space) (elementsAt ms "errors") (errors.getD []))
      (oneWay_eq : (ms.get? "one-way").getD (.bool false) = .bool isOneWay) :
    MessageFor space (name, .object ms)
      { name := name, doc := textAt ms "doc", properties := ms.without messageKeys,
        request := request, response := response, errors := errors, isOneWay := isOneWay }

/-- The definitions in a message: in its parameters, its response and its errors. -/
def messageDefinitions (space : Option Text) : Json → List Definition
  | .object ms =>
    (elementsAt ms "request").flatMap (fieldDefinitions space) ++
      definitionsAt space "response" ms ++ (elementsAt ms "errors").flatMap (definitionsIn space)
  | _ => []

/-- The namespace of a protocol. -/
def protocolSpace (ms : Members) : Option Text := normalizeNamespace (textAt ms "namespace")

/-- The messages of a protocol. -/
def messagesAt (ms : Members) : Members :=
  match ms.get? "messages" with
  | some (.object messages) => messages
  | _ => []

/-- The definitions in a protocol: in its types and then in its messages. -/
def protocolDefinitions (ms : Members) : List Definition :=
  (elementsAt ms "types").flatMap (definitionsIn (protocolSpace ms)) ++
    (messagesAt ms).flatMap fun m => messageDefinitions (protocolSpace ms) m.2

/-- The types are what the definitions say, one for each of them, in their order. -/
def Lists (ds : List Definition) (types : List Schema) : Prop :=
  List.Forall₂ (fun d s => d.Says s ∧ s.full = d.full ∧ s.isNamed = true) ds types

end AvroIdl.Document
