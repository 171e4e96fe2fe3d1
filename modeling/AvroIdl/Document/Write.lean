import AvroIdl.Document
import AvroIdl.Registry

/-!
# From the model to JSON

A named type is written in full where it is first reached and by its name from then on. A reference
leads into the registry; since every such step writes a new name, there are no more of them, one
inside the other, than there are registered types.
-/
namespace AvroIdl.Document

/-- A computation that knows the full names that have been written. -/
abbrev Writer := StateM (List Text)

def sameNamespace (a b : Option Text) : Bool := normalizeNamespace a == normalizeNamespace b

/-- A name as it is written in an enclosing namespace. -/
def relativeName (name : Text) (space enclosing : Option Text) : Text :=
  if sameNamespace space enclosing then name else fullName name space

/-- An alias in the type's own namespace is written without it. -/
def shortAlias (space : Option Text) (full : Text) : Text :=
  match Text.splitLast Byte.dot full, space with
  | some (before, last), some s => if before = s then last else full
  | _, _ => full

def member (key : Text) (value : Json) : Members := [(key, value)]

def optionalMember (key : Text) (value : Option Json) : Members :=
  value.toList.flatMap (member key)

/-- The name of a type, and its namespace where it is not the enclosing one. -/
def nameMembers (h : Head) (enclosing : Option Text) : Members :=
  let space :=
    if sameNamespace h.space enclosing then none else normalizeNamespace h.space
  member "name" (.string h.name) ++ optionalMember "namespace" (space.map .string)

def docMember (doc : Option Text) : Members := optionalMember "doc" (doc.map .string)

/-- The aliases, which are left out if there are none. -/
def aliasMember (aliases : List Text) : Members :=
  if aliases.isEmpty then [] else member "aliases" (.ofTexts aliases)

def typeAliases (h : Head) : Members := aliasMember (h.aliases.map (shortAlias h.space))

def logicalMembers (kind : LogicalKind) (precision scale : Nat) : Members :=
  member "logicalType" (.string kind.text) ++
    if kind = .decimal then
      member "precision" (.integer precision) ++ member "scale" (.integer scale)
    else []

def recordMembers (h : Head) (isError : Bool) (enclosing : Option Text) (fields : List Json) :
    Members :=
  member "type" (.string (if isError then "error" else "record")) ++ nameMembers h enclosing ++
    docMember h.doc ++ member "fields" (.array fields) ++ typeAliases h

def enumMembers (h : Head) (enclosing : Option Text) (symbols : List Text)
    (default : Option Text) : Members :=
  member "type" (.string "enum") ++ nameMembers h enclosing ++ typeAliases h ++ docMember h.doc ++
    member "symbols" (.ofTexts symbols) ++ optionalMember "default" (default.map .string)

def fixedMembers (h : Head) (enclosing : Option Text) (size : Nat) : Members :=
  member "type" (.string "fixed") ++ nameMembers h enclosing ++ docMember h.doc ++
    member "size" (.integer size) ++ typeAliases h

/-- A field; the ascending order is not written. -/
def fieldMembers (f : Field) (type : Json) : Members :=
  let order := f.order.filter (· != .ascending)
  Members.merge
    (member "name" (.string f.name) ++ member "type" type ++ docMember f.doc ++
      optionalMember "default" f.default ++ optionalMember "order" (order.map (.string ·.text)) ++
      aliasMember f.aliases)
    f.properties

/-- The namespace in force inside a record: one without a namespace keeps the enclosing one. -/
def fieldNamespace (h : Head) (enclosing : Option Text) : Option Text :=
  (normalizeNamespace h.space).or enclosing

/-- Writes a definition where its name is new, and the name alone where it is not. -/
def once (h : Head) (enclosing : Option Text) (definition : Writer Members) : Writer Json := do
  if (← get).contains h.full then return .string (relativeName h.name h.space enclosing)
  else
    modify (h.full :: ·)
    return .object (← definition)

mutual

/-- A type in an enclosing namespace; `follow` writes references. -/
def writeWith (follow : Reference → Option Text → Writer Json) (enclosing : Option Text) :
    Schema → Writer Json
  | .primitive p n =>
    if n.properties.isEmpty then return .string p.text
    else return .object ((member "type" (.string p.text)).merge n.properties)
  | .reference r => follow r enclosing
  | .record h isError fields =>
    once h enclosing do
      let fields ← writeFields follow (fieldNamespace h enclosing) fields
      return (recordMembers h isError enclosing fields).merge h.properties
  | .enumeration h symbols default =>
    once h enclosing do
      return (enumMembers h enclosing symbols default).merge h.properties
  | .fixed h size =>
    once h enclosing do
      return (fixedMembers h enclosing size).merge h.properties
  | .compound .array (items :: _) n => do
    let items ← writeWith follow enclosing items
    let members := member "type" (.string "array") ++ member "items" items
    return .object (members.merge n.properties)
  | .compound .map (values :: _) n => do
    let values ← writeWith follow enclosing values
    let members := member "type" (.string "map") ++ member "values" values
    return .object (members.merge n.properties)
  | .compound (.union _) branches _ => do
    return .array (← writeParts follow enclosing branches)
  | .compound (.logical k precision scale) (.fixed h size :: _) n =>
    once h enclosing do
      let members := fixedMembers h enclosing size ++ logicalMembers k precision scale
      return (members.merge h.properties).merge n.properties
  | .compound (.logical k precision scale) (base :: _) n =>
    let members := member "type" (.string base.kind.text) ++ logicalMembers k precision scale
    return .object ((members.merge base.properties).merge n.properties)
  | .compound _ [] _ => return .null

def writeFields (follow : Reference → Option Text → Writer Json) (enclosing : Option Text) :
    List (FieldOf Schema) → Writer (List Json)
  | [] => return []
  | ⟨name, type, doc, default, order, aliases, properties, span⟩ :: fields => do
    let written ← writeWith follow enclosing type
    let f : Field := ⟨name, type, doc, default, order, aliases, properties, span⟩
    return .object (fieldMembers f written) :: (← writeFields follow enclosing fields)

def writeParts (follow : Reference → Option Text → Writer Json) (enclosing : Option Text) :
    List Schema → Writer (List Json)
  | [] => return []
  | s :: parts => do
    let written ← writeWith follow enclosing s
    return written :: (← writeParts follow enclosing parts)

end

/-- A reference: the definition of its type if that is new, and otherwise its name. At most the
given number of references are followed, one inside the other. -/
def writeReference (registry : Registry) : (steps : Nat) → Reference → Option Text → Writer Json
  | 0, r, enclosing => return .string (relativeName r.name r.space enclosing)
  | steps + 1, r, enclosing => do
    let written ← get
    match registry.lookup r with
    | some target =>
      if written.contains target.full then
        return .string (relativeName r.name r.space enclosing)
      else writeWith (writeReference registry steps) enclosing target
    | none => return .string (relativeName r.name r.space enclosing)

/-- A type with the registered types that it uses. -/
def writeSchema (registry : Registry) (s : Schema) (enclosing : Option Text) : Writer Json :=
  writeWith (writeReference registry registry.size) enclosing s

/-- The registered types of the given names that have not been written yet. -/
def writeTypes (registry : Registry) (enclosing : Option Text) : List Text → Writer (List Json)
  | [] => return []
  | name :: names => do
    let written ← get
    match registry.find? name with
    | some s =>
      if written.contains name then writeTypes registry enclosing names
      else
        let type ← writeSchema registry s enclosing
        return type :: (← writeTypes registry enclosing names)
    | none => writeTypes registry enclosing names

/-- A list of types. -/
def writeNamed (registry : Registry) (names : List Text) : Writer Json := do
  return .array (← writeTypes registry none names)

/-- One registered type with all that it uses, whatever was written before. -/
def writeStandalone (registry : Registry) (name : Text) : Writer Json := do
  set ([] : List Text)
  match registry.find? name with
  | some s => writeSchema registry s none
  | none => return .null

def writeAll (registry : Registry) (enclosing : Option Text) : List Schema → Writer (List Json)
  | [] => return []
  | s :: ss => do
    let written ← writeSchema registry s enclosing
    return written :: (← writeAll registry enclosing ss)

def writeParameters (registry : Registry) (enclosing : Option Text) :
    List Field → Writer (List Json)
  | [] => return []
  | f :: fs => do
    let type ← writeSchema registry f.type enclosing
    return .object (fieldMembers f type) :: (← writeParameters registry enclosing fs)

/-- A message. Its further properties come before the request. -/
def writeMessage (registry : Registry) (enclosing : Option Text) (m : Message) : Writer Json := do
  let start := (docMember m.doc).merge m.properties
  let request ← writeParameters registry enclosing m.request
  let response ← writeSchema registry m.response enclosing
  let members := (start.put "request" (.array request)).put "response" response
  let errors ← writeAll registry enclosing (m.errors.getD [])
  let members := if errors.isEmpty then members else members.put "errors" (.array errors)
  return .object (if m.isOneWay then members.put "one-way" (.bool true) else members)

/-- The messages from the left, added to those before them. -/
def writeMessages (registry : Registry) (enclosing : Option Text) (done : Members) :
    List Message → Writer Members
  | [] => return done
  | m :: ms => do
    let written ← writeMessage registry enclosing m
    writeMessages registry enclosing (done.put m.name written) ms

def writeProtocol (registry : Registry) (p : Protocol) : Writer Json := do
  let start :=
    member "protocol" (.string p.name) ++ optionalMember "namespace" (p.space.map .string) ++
      docMember p.doc
  let types ← writeTypes registry p.space p.types
  let messages ← writeMessages registry p.space [] p.messages
  return .object
    (((start.merge p.properties).put "types" (.array types)).put "messages" (.object messages))

end AvroIdl.Document
