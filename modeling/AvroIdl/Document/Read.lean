import AvroIdl.Document
import AvroIdl.Schema.Logical

/-!
# From JSON to the model

A document is flattened: every named type that is defined in it goes to the list of types, and a
reference takes its place. `isClean` is false for a reader that has met problems in an earlier
document; such a reader gives up at the first named type or protocol.
-/
namespace AvroIdl.Document

/-- A result, or the problems that prevent it in the order in which they were met. -/
abbrev Outcome := Except (List Problem)

/-- A type as it stands in its parent, and the named types that were defined inside it. -/
structure Converted where
  schema : Schema
  types : List Schema := []
  deriving BEq, Repr

def recordKeys : List Text := ["type", "name", "namespace", "doc", "fields", "aliases"]

def enumKeys : List Text := ["type", "name", "namespace", "doc", "symbols", "default", "aliases"]

def fixedKeys : List Text := ["type", "name", "namespace", "doc", "size", "aliases"]

def fieldKeys : List Text := ["name", "type", "doc", "default", "order", "aliases"]

def messageKeys : List Text := ["doc", "request", "response", "errors", "one-way"]

/-- A string that may be absent or null. A value of another type is a problem that does not stop the
reading at once. -/
def optionalString (ms : Members) (key owner : Text) : Option Text × List Problem :=
  match ms.get? key with
  | none | some .null => (none, [])
  | some (.string s) => (some s, [])
  | some _ => (none, [.wrongValue key owner "a string"])

/-- An array of strings, which is empty if it is absent. -/
def stringArray (ms : Members) (key owner : Text) : Outcome (List Text) :=
  let problem : Problem := .wrongValue key owner "an array of strings"
  match ms.get? key with
  | none => .ok []
  | some (.array elements) =>
    elements.mapM fun e =>
      match e with
      | .string s => .ok s
      | _ => .error [problem]
  | some _ => .error [problem]

/-- Goes on only without problems so far. -/
def proceed (isClean : Bool) (problems : List Problem) : Outcome Unit :=
  if isClean && problems.isEmpty then .ok () else .error problems

/-- Adds problems that were met before those of a result. -/
def preceded {α : Type} (problems : List Problem) : Outcome α → Outcome α
  | .ok a => .ok a
  | .error ps => .error (problems ++ ps)

/-- The branches of a union from the left, with the keys of those before them. -/
def readBranches (one : Json → Outcome Converted) :
    (seen : List Text) → List Json → Outcome (List Schema × List Schema)
  | _, [] => .ok ([], [])
  | seen, j :: js => do
    let branch ← one j
    if branch.schema.isUnion then .error [.nestedUnion]
    else
      let key := branch.schema.branchKey
      if seen.contains key then .error [.duplicateBranch key]
      else
        let (schemas, types) ← readBranches one (key :: seen) js
        return (branch.schema :: schemas, branch.types ++ types)

/-- The order of a field, if it has one; problems that were met before come with its own. -/
def readOrder (ms : Members) (owner : Text) (problems : List Problem) :
    Outcome (Option FieldOrder) :=
  if ms.contains "order" then
    let (text, orderProblems) := optionalString ms "order" owner
    match text.bind FieldOrder.ofText? with
    | some order => .ok (some order)
    | none => .error (problems ++ orderProblems ++ [.badOrder owner])
  else .ok none

/-- One field whose name is known, and the named types inside its type. -/
def readField (one : Json → Outcome Converted) (name : Text) (ms : Members) :
    Outcome (Field × List Schema) :=
  let owner : Text := "field '" ++ name ++ "'"
  match ms.get? "type" with
  | none => .error [.missingKey owner "type"]
  | some type => do
    let converted ← one type
    let (doc, docProblems) := optionalString ms "doc" owner
    let order ← readOrder ms owner docProblems
    let aliases ← preceded docProblems (stringArray ms "aliases" owner)
    proceed true docProblems
    return ({ name := name, type := converted.schema, doc := doc, default := ms.get? "default",
              order := order, aliases := aliases, properties := ms.without fieldKeys },
            converted.types)

/-- The fields from the left, with the names of those before them. -/
def readFieldList (one : Json → Outcome Converted) :
    (seen : List Text) → List Json → Outcome (List Field × List Schema)
  | _, [] => .ok ([], [])
  | seen, j :: js =>
    match j with
    | .object ms =>
      match Members.get? ms "name" with
      | some (.string name) =>
        if seen.contains name then .error [.duplicateField ("field '" ++ name ++ "'")]
        else do
          let (field, inner) ← readField one name ms
          let (fields, types) ← readFieldList one (name :: seen) js
          return (field :: fields, inner ++ types)
      | _ => .error [.unnamedField j]
    | _ => .error [.unnamedField j]

def readFields (one : Json → Outcome Converted) : Json → Outcome (List Field × List Schema)
  | .array elements => readFieldList one [] elements
  | _ => .error [.fieldsNotArray]

/-- The words for named types. -/
inductive Word where
  | record
  | error
  | enum
  | fixed
  deriving DecidableEq, Repr

namespace Word

def text : Word → Text
  | record => "record"
  | error => "error"
  | enum => "enum"
  | fixed => "fixed"

def ofText? (t : Text) : Option Word := [record, error, enum, fixed].find? fun w => w.text == t

end Word

/-- The name of a definition: a dotted one says its own namespace, and otherwise the declared
namespace counts before the enclosing one. -/
def definedName (name : Text) (declared : Option (Option Text)) (enclosing : Option Text) :
    QualifiedName :=
  if name.contains Byte.dot then (Scope.of none).qualify name
  else
    match declared with
    | some space => ⟨name, normalizeNamespace space⟩
    | none => ⟨name, enclosing⟩

/-- The first text that occurs a second time. -/
def firstRepeated : (seen : List Text) → List Text → Option Text
  | _, [] => none
  | seen, t :: ts => if seen.contains t then some t else firstRepeated (t :: seen) ts

def readEnum (head : Head) (owner : Text) (ms : Members) : Outcome Schema := do
  if !ms.contains "symbols" then .error [.missingKey owner "symbols"]
  else
    let symbols ← stringArray ms "symbols" owner
    match firstRepeated [] symbols with
    | some symbol => .error [.duplicateSymbol symbol owner]
    | none =>
      let (default, problems) := optionalString ms "default" owner
      proceed true problems
      return .enumeration { head with properties := ms.without enumKeys } symbols default

def readFixed (head : Head) (owner : Text) (ms : Members) : Outcome Schema :=
  match ms.get? "size" with
  | some (.integer size) =>
    if 0 ≤ size ∧ size < pow2 32 then
      .ok (Schema.fixed { head with properties := ms.without fixedKeys } size.toNat).promote
    else .error [.sizeRange size owner]
  | _ => .error [.noSize owner]

/-- A named type. Its own definition comes before those inside it. -/
def readNamed (isClean : Bool) (fieldType : Option Text → Json → Outcome Converted) (word : Word)
    (enclosing : Option Text) (ms : Members) : Outcome Converted := do
  match ms.get? "name" with
  | some (.string name) =>
    let owner : Text := word.text ++ " '" ++ name ++ "'"
    let hasNamespace := ms.contains "namespace"
    let (declared, problems) := optionalString ms "namespace" owner
    proceed (isClean || !hasNamespace) problems
    let q := definedName name (if hasNamespace then some declared else none) enclosing
    let (doc, docProblems) := optionalString ms "doc" owner
    let aliases ← preceded docProblems (stringArray ms "aliases" owner)
    proceed isClean docProblems
    let head : Head := { name := q.name, space := q.space, doc := doc, aliases := aliases }
    let reference : Schema := .reference { name := q.name, space := q.space }
    match word with
    | .enum => return ⟨reference, [← readEnum head owner ms]⟩
    | .fixed => return ⟨reference, [← readFixed head owner ms]⟩
    | .record | .error =>
      match ms.get? "fields" with
      | none => .error [.missingKey owner "fields"]
      | some fields =>
        let (fields, inner) ← readFields (fieldType q.space) fields
        let head := { head with properties := ms.without recordKeys }
        return ⟨reference, .record head (word = .error) fields :: inner⟩
  | _ => .error [.missingInType word.text "name"]

/-- A name at a place where a type is expected: a primitive or a reference. -/
def readName (enclosing : Option Text) (name : Text) (properties : Members) : Schema :=
  match Primitive.ofText? name with
  | some p => (Schema.primitive p { properties := properties }).promote
  | none =>
    let q := (Scope.of enclosing).qualify name
    .reference { name := q.name, space := q.space, properties := properties }

/-- The shape of an array or a map, and the key of its part. -/
def containerOf? (word : Text) : Option (Shape × Text) :=
  if word = "array" then some (.array, "items")
  else if word = "map" then some (.map, "values")
  else none

/-- The type that a value says in an enclosing namespace, of which the given levels may be nested.
The type of a field is two levels below its record. -/
def readSchema (isClean : Bool) : (levels : Nat) → Option Text → Json → Outcome Converted
  | 0, _, _ => .error [.tooDeep]
  | levels + 1, enclosing, j =>
    let fieldType : Option Text → Json → Outcome Converted :=
      match levels with
      | 0 => fun _ _ => .error [.tooDeep]
      | below + 1 => readSchema isClean below
    match j with
    | .string name => .ok ⟨readName enclosing name [], []⟩
    | .array branches => do
      let (schemas, types) ← readBranches (readSchema isClean levels enclosing) [] branches
      return ⟨.compound (.union false) schemas {}, types⟩
    | .object ms =>
      match Members.get? ms "type" with
      | none => .error [.noType j]
      | some (.string word) =>
        match Word.ofText? word, containerOf? word with
        | some w, _ => readNamed isClean fieldType w enclosing ms
        | none, some (shape, key) =>
          match Members.get? ms key with
          | none => .error [.missingInType word key]
          | some part => do
            let inner ← readSchema isClean levels enclosing part
            let properties := Members.without ms ["type", key]
            return ⟨.compound shape [inner.schema] { properties := properties }, inner.types⟩
        | none, none => .ok ⟨readName enclosing word (Members.without ms ["type"]), []⟩
      | some type => readSchema isClean levels enclosing type
    | _ => .error [.notSchema j.typeName]

/-- The levels of a type that nothing encloses. -/
def fullLevels : Nat := maxNesting + 1

/-- The named types of a schema document. -/
def ofSchema (isClean : Bool) (j : Json) : Outcome Document := do
  let read ← readSchema isClean fullLevels none j
  return { types := read.types }

/-- Types from the left; only the named types inside them count. -/
def readTypes (one : Json → Outcome Converted) : List Json → Outcome (List Schema × List Schema)
  | [] => .ok ([], [])
  | j :: js => do
    let read ← one j
    let (schemas, types) ← readTypes one js
    return (read.schema :: schemas, read.types ++ types)

/-- The parameters of a message, whose types are two of the levels below it. -/
def readRequest (levels : Nat) (space : Option Text) (name : Text) (ms : Members) :
    Outcome (List Field × List Schema) :=
  match ms.get? "request" with
  | none => .error [.missingInMessage name "request"]
  | some request => readFields (readSchema true (levels - 2) space) request

/-- What a message returns, one level below it. -/
def readResponse (levels : Nat) (space : Option Text) (name : Text) (ms : Members) :
    Outcome Converted :=
  match ms.get? "response" with
  | none => .error [.missingInMessage name "response"]
  | some response => readSchema true (levels - 1) space response

/-- The errors of a message, which may declare none, one level below it. -/
def readErrors (levels : Nat) (space : Option Text) (owner : Text) (ms : Members) :
    Outcome (Option (List Schema) × List Schema) :=
  match ms.get? "errors" with
  | none => .ok (none, [])
  | some (.array errors) => do
    let (schemas, types) ← readTypes (readSchema true (levels - 1) space) errors
    return (some schemas, types)
  | some _ => .error [.wrongValue "errors" owner "an array"]

def readOneWay (owner : Text) (ms : Members) : Outcome Bool :=
  match ms.get? "one-way" with
  | none => .ok false
  | some (.bool b) => .ok b
  | some _ => .error [.wrongValue "one-way" owner "a boolean"]

/-- A message and the named types inside it. -/
def readMessage (levels : Nat) (space : Option Text) (name : Text) (ms : Members) :
    Outcome (Message × List Schema) := do
  let owner : Text := "message '" ++ name ++ "'"
  let (doc, problems) := optionalString ms "doc" owner
  proceed true problems
  let request ← readRequest levels space name ms
  let response ← readResponse levels space name ms
  let errors ← readErrors levels space owner ms
  let isOneWay ← readOneWay owner ms
  return ({ name := name, doc := doc, properties := ms.without messageKeys, request := request.1,
            response := response.schema, errors := errors.1, isOneWay := isOneWay },
          request.2 ++ response.types ++ errors.2)

/-- The messages from the left and the named types inside them. -/
def readMessages (levels : Nat) (space : Option Text) :
    Members → Outcome (List Message × List Schema)
  | [] => .ok ([], [])
  | (name, body) :: rest =>
    match body with
    | .object ms => do
      let (message, inner) ← readMessage levels space name ms
      let (messages, types) ← readMessages levels space rest
      return (message :: messages, inner ++ types)
    | _ => .error [.messageNotObject name]

/-- The types that a protocol lists. -/
def protocolTypes (levels : Nat) (space : Option Text) (owner : Text) (ms : Members) :
    Outcome (List Schema) :=
  match ms.get? "types" with
  | none => .ok []
  | some (.array types) => do
    let (_, types) ← readTypes (readSchema true levels space) types
    return types
  | some _ => .error [.wrongValue "types" owner "an array"]

/-- The messages of a protocol and the named types inside them. -/
def protocolMessages (levels : Nat) (space : Option Text) (owner : Text) (ms : Members) :
    Outcome (List Message × List Schema) :=
  match ms.get? "messages" with
  | none => .ok ([], [])
  | some (.object messages) => readMessages levels space messages
  | some _ => .error [.wrongValue "messages" owner "an object"]

/-- A protocol in which types may be nested in the given levels. -/
def readProtocol (isClean : Bool) (levels : Nat) : Json → Outcome Document
  | .object ms =>
    match Members.get? ms "protocol" with
    | some (.string name) => do
      let owner : Text := "protocol '" ++ name ++ "'"
      let (declared, problems) := optionalString ms "namespace" owner
      proceed isClean problems
      let space := normalizeNamespace declared
      let types ← protocolTypes levels space owner ms
      let (messages, inner) ← protocolMessages levels space owner ms
      return ⟨types ++ inner, messages⟩
    | _ => .error [.noProtocolName]
  | _ => .error [.noProtocolName]

/-- The named types and messages of a protocol document. -/
def ofProtocol (isClean : Bool) (j : Json) : Outcome Document := readProtocol isClean fullLevels j

end AvroIdl.Document
