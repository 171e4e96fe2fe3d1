import AvroIdl.Build.Type

/-!
# Declarations of a source

The named types and messages that declarations denote in a scope.
-/
namespace AvroIdl.Build

/-- The name that a declaration has: a dotted name says its own namespace, and otherwise an
annotation counts before the scope. -/
def declaredName (c : Context) (name : Identifier) (set : AnnotationSet) :
    Except Diagnostic QualifiedName :=
  let q : QualifiedName :=
    if name.text.contains Byte.dot then (Scope.of none).qualify name.text
    else ⟨name.text, set.space.getD c.scope.current⟩
  match Name.problem? q.name q.space name.escaped with
  | some p => .error ((Problem.name p).diagnostic c.file name.span)
  | none => .ok q

/-- The head of a named type. -/
def headOf (c : Context) (name : Identifier) (doc : Option Text) (as : List Annotation) :
    Except Diagnostic (QualifiedName × Head) := do
  let set ← AnnotationSet.collect c.file { space := true, aliases := true } as
  let q ← declaredName c name set
  return (q, { name := q.name, space := q.space, doc := doc, aliases := set.aliases.getD []
               properties := set.properties, span := some name.span })

/-- Puts the other branch of an optional type first, so that a default that is not null fits it. -/
def branchesFor : (default : Json) → Schema → Schema
  | .null, s => s
  | _, .compound (.union true) [first, second] n => .compound (.union true) [second, first] n
  | _, s => s

/-- The default of a field and the schema that goes with it. References are not known yet, so what
they stand for is checked later. -/
def defaultOf (c : Context) (name owner : Text) (s : Schema) :
    Option JsonNode → Report (Schema × Option Json)
  | none => return (s, none)
  | some node => do
    let value ← decodedJson c node
    let s := branchesFor value s
    match Default.mismatch? Schema.Lookup.none s value with
    | some cause => stop c (.invalidDefault name owner cause) node.span
    | none => return (s, some value)

/-- A field or parameter; the owner is described in words. -/
def fieldOf (c : Context) (owner : Text) (type : TypeNode) (typeDoc : Option Text)
    (d : Declarator) : Report Field := do
  let set ← Report.ofExcept
    (AnnotationSet.collect c.file { aliases := true, order := true } d.annotations)
  let name := d.name.text
  if !Name.isValid name then stop c (.illegalField name owner) d.name.span
  else
    let s ← typeOf c type
    let (s, default) ← defaultOf c name owner s d.default
    return { name := name, type := s, doc := d.doc.or typeDoc, default := default
             order := set.order, aliases := set.aliases.getD [], properties := set.properties
             span := some d.name.span }

/-- The fields of declarators that share a type, with the names of those before them. -/
def declaratorFields (c : Context) (owner : Text) (f : FieldDecl) (seen : List Text) :
    List Declarator → Report (List Field)
  | [] => return []
  | d :: ds => do
    let field ← fieldOf c owner f.type f.doc d
    if seen.contains field.name then stop c (.duplicateField field.name owner) d.name.span
    else return field :: (← declaratorFields c owner f (field.name :: seen) ds)

/-- The fields of a record, with the names of those before them. -/
def recordFields (c : Context) (owner : Text) (seen : List Text) :
    List FieldDecl → Report (List Field)
  | [] => return []
  | f :: fs => do
    let fields ← declaratorFields c owner f seen f.declarators
    return fields ++ (← recordFields c owner (fields.map (·.name) ++ seen) fs)

def recordOf (c : Context) (d : RecordDecl) : Report Schema := do
  let (q, head) ← Report.ofExcept (headOf c d.name d.doc d.annotations)
  let owner : Text := (if d.isError then "error '" else "record '") ++ q.full ++ "'"
  let fields ← recordFields { c with scope := c.scope.enter q.space } owner [] d.fields
  return .record head d.isError fields

/-- The symbols of an enum, with those before them. -/
def symbolsOf (c : Context) (enum : Text) (seen : List Text) :
    List Identifier → Except Diagnostic (List Text)
  | [] => .ok []
  | i :: is =>
    if !Name.isValid i.text then .error ((Problem.illegalSymbol i.text).diagnostic c.file i.span)
    else if seen.contains i.text then
      .error ((Problem.duplicateSymbol i.text enum).diagnostic c.file i.span)
    else return i.text :: (← symbolsOf c enum (i.text :: seen) is)

def enumOf (c : Context) (d : EnumDecl) : Except Diagnostic Schema := do
  let (q, head) ← headOf c d.name d.doc d.annotations
  let symbols ← symbolsOf c q.full [] d.symbols
  match d.default with
  | none => return .enumeration head symbols none
  | some i =>
    if symbols.contains i.text then return .enumeration head symbols (some i.text)
    else .error ((Problem.unknownDefaultSymbol i.text q.full).diagnostic c.file i.span)

def fixedOf (c : Context) (d : FixedDecl) : Except Diagnostic Schema := do
  let (_, head) ← headOf c d.name d.doc d.annotations
  match Literal.decodeUnsigned32 "Fixed size" d.size with
  | .ok size => return (Schema.fixed head size).promote
  | .error p => .error (p.diagnostic c.file d.sizeSpan)

/-- The parameters of a message, with the names of those before them. -/
def parametersOf (c : Context) (owner : Text) (seen : List Text) :
    List Parameter → Report (List Field)
  | [] => return []
  | p :: ps => do
    let field ← fieldOf c owner p.type none p.declarator
    if seen.contains field.name then
      stop c (.duplicateParameter field.name owner) p.declarator.name.span
    else return field :: (← parametersOf c owner (field.name :: seen) ps)

/-- What a message returns; nothing is null. -/
def responseOf (c : Context) (name : Text) (isOneWay : Bool) : ResultType → Report Schema
  | .void _ => return .plain .null
  | .value type =>
    if isOneWay then stop c (.oneWayResult name) type.mark.span else typeOf c type

def messageOf (c : Context) (d : MessageDecl) : Report Message := do
  let set ← Report.ofExcept (AnnotationSet.collect c.file {} d.annotations)
  let name := d.name.text
  if !Name.isValid name then stop c (.illegalMessage name) d.name.span
  else
    let response ← responseOf c name d.isOneWay d.result
    let request ← parametersOf c ("message '" ++ name ++ "'") [] d.parameters
    return { name := name, doc := d.doc, properties := set.properties, request := request
             response := response, errors := d.errors.map fun es => es.map (referenceTo c)
             isOneWay := d.isOneWay, span := some d.name.span }

end AvroIdl.Build
