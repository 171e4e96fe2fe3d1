import AvroIdl.Tree.Cursor

/-!
# The grammar

One reader per construct of the language. `SourceUnit.ofTokens` reads a whole token list; it gives
the unit as far as it was read, and the problem that ended the reading, if there was one.
-/
namespace AvroIdl

namespace Reader

/-- The readers of JSON values: `levels` more values may be nested in each other. -/
def json : (levels : Nat) → Reader JsonNode
  | 0 => do
    fail .deepJson
    return .missing
  | levels + 1 => do
    let first ← peek
    let spanned (make : Span → JsonNode) : Reader JsonNode :=
      return make (first.span.to (← get).previous.span)
    let literal (kind : JsonNode.Scalar) : Reader JsonNode := do
      spanned (.scalar kind (← get).previous.text)
    if ← accept (.mark .leftBrace) then
      let members ←
        if ← isAt (.mark .rightBrace) then pure []
        else
          separated do
            let key ← expect .string
            let _ ← expectMark .colon
            return (key.text, key.span, ← json levels)
      let _ ← expectMark .rightBrace
      spanned (.object members)
    else if ← accept (.mark .leftBracket) then
      let elements ←
        if ← isAt (.mark .rightBracket) then pure [] else separated (json levels)
      let _ ← expectMark .rightBracket
      spanned (.array elements)
    else if ← accept .string then literal .string
    else if ← accept .integer then literal .integer
    else if ← accept .float then literal .float
    else if ← accept (.keyword .true) then spanned (.scalar .true [])
    else if ← accept (.keyword .false) then spanned (.scalar .false [])
    else if ← accept (.keyword .null) then spanned (.scalar .null [])
    else
      failExpecting [.mark .leftBrace, .mark .leftBracket, .string, .integer, .float,
        .keyword .true, .keyword .false, .keyword .null]
      return .missing

def jsonValue : Reader JsonNode := json (maxNesting + 1)

def annotation : Reader Annotation := do
  let sign ← advance
  let name ← identifier
  let _ ← expectMark .leftParen
  let value ← jsonValue
  let closing ← expectMark .rightParen
  return ⟨name.text, value, sign.span.to closing.span⟩

def annotations : Reader (List Annotation) := many (·.isAt (.mark .at)) annotation

/-- The kinds of tokens that a type may start with. -/
def typeStarts : List Token.Kind :=
  ([.array, .map, .union, .boolean, .int, .long, .float, .double, .string, .bytes, .null, .date,
    .timeMs, .timestampMs, .localTimestampMs, .uuid, .decimal] : List Keyword).map .keyword ++
    [.identifier]

/-- A type without the annotations before it, of which `levels` more may be nested. -/
def plainType (levels : Nat) (annotations : List Annotation) (start : Span) : Reader TypeNode :=
  match levels with
  | 0 => do
    fail .deepType
    return .missing annotations
  | levels + 1 => do
    let element : Reader TypeNode := do
      let inner := (← peek).span
      plainType levels (← Reader.annotations) inner
    let marked (isOptional : Bool) : Reader TypeMark :=
      return ⟨annotations, isOptional, start.to (← get).previous.span⟩
    if ← accept (.keyword .array) then
      let _ ← expectMark .lessThan
      let items ← element
      let _ ← expectMark .greaterThan
      return .array items (← marked false)
    else if ← accept (.keyword .map) then
      let _ ← expectMark .lessThan
      let values ← element
      let _ ← expectMark .greaterThan
      return .map values (← marked false)
    else if ← accept (.keyword .union) then
      let _ ← expectMark .leftBrace
      let branches ← separated element
      let _ ← expectMark .rightBrace
      return .union branches (← marked false)
    else if ← accept (.keyword .decimal) then
      let _ ← expectMark .leftParen
      let precision ← expect .integer
      let scale ←
        if ← accept (.mark .comma) then some <$> expect .integer else pure none
      let _ ← expectMark .rightParen
      let isOptional ← accept (.mark .question)
      return .decimal precision.text (scale.map (·.text)) (← marked isOptional)
    else
      let c ← get
      match c.primitive? with
      | some k =>
        let _ ← advance
        let isOptional ← accept (.mark .question)
        return .primitive k (← marked isOptional)
      | none =>
        if c.isAtName && !c.isAt (.keyword .void) then
          let name ← identifier
          let isOptional ← accept (.mark .question)
          return .reference name (← marked isOptional)
        else
          failExpecting typeStarts
          return .missing annotations

/-- A type with the annotations before it. -/
def fullType : Reader TypeNode := do
  let start := (← peek).span
  plainType (maxNesting + 1) (← annotations) start

def declarator : Reader Declarator := do
  let first ← peek
  let doc ← takeDoc first
  let annotations ← annotations
  let name ← identifier
  let default ← if ← accept (.mark .equals) then some <$> jsonValue else pure none
  return ⟨doc, annotations, name, default, first.span.to (← get).previous.span⟩

def field : Reader FieldDecl := do
  let first ← peek
  let doc ← takeDoc first
  let type ← fullType
  let declarators ← separated declarator
  let terminator ← expectMark .semicolon
  return ⟨doc, type, declarators, first.span.to terminator.span⟩

/-- Inside braces, as long as the reading goes well. -/
def inBraces (c : Cursor) : Bool :=
  c.failure.isNone && !c.isAt (.mark .rightBrace) && !c.atEnd

/-- What stands before a declaration: its annotations and documentation, and its first token. -/
structure Heading where
  annotations : List Annotation
  doc : Option Text
  first : Token

def record (h : Heading) : Reader RecordDecl := do
  let keyword ← advance
  let name ← identifier
  let _ ← expectMark .leftBrace
  let fields ← many inBraces field
  let closing ← expectMark .rightBrace
  return ⟨h.doc, h.annotations, keyword.kind == .keyword .error, name, fields,
    h.first.span.to closing.span⟩

def enumeration (h : Heading) : Reader EnumDecl := do
  let _ ← advance
  let name ← identifier
  let _ ← expectMark .leftBrace
  let symbols ← if ← isAt (.mark .rightBrace) then pure [] else separated identifier
  let closing ← expectMark .rightBrace
  if ← accept (.mark .equals) then
    let default ← identifier
    let terminator ← expectMark .semicolon
    return ⟨h.doc, h.annotations, name, symbols, some default, h.first.span.to terminator.span⟩
  else return ⟨h.doc, h.annotations, name, symbols, none, h.first.span.to closing.span⟩

def fixed (h : Heading) : Reader FixedDecl := do
  let _ ← advance
  let name ← identifier
  let _ ← expectMark .leftParen
  let size ← expect .integer
  let _ ← expectMark .rightParen
  let terminator ← expectMark .semicolon
  return ⟨h.doc, h.annotations, name, size.text, size.span, h.first.span.to terminator.span⟩

/-- A parameter; a comment before its type documents it if none stands before its name. -/
def parameter : Reader Parameter := do
  let typeDoc ← takeDoc (← peek)
  let type ← fullType
  let name ← declarator
  return ⟨type, { name with doc := name.doc.or typeDoc }⟩

def resultType : Reader ResultType := do
  if ← isAt (.keyword .void) then return .void (← advance).span
  else return .value (← plainType (maxNesting + 1) [] (← peek).span)

/-- The errors that a message declares, if it declares any. -/
def thrown : Reader (Option (List Identifier)) := do
  if ← accept (.keyword .throws) then some <$> separated identifier else return none

def message (h : Heading) : Reader MessageDecl := do
  let result ← resultType
  let name ← identifier
  let _ ← expectMark .leftParen
  let parameters ← if ← isAt (.mark .rightParen) then pure [] else separated parameter
  let _ ← expectMark .rightParen
  let isOneWay ← accept (.keyword .oneway)
  let errors ← if isOneWay then pure none else thrown
  let terminator ← expectMark .semicolon
  return ⟨h.doc, h.annotations, result, name, parameters, isOneWay, errors,
    h.first.span.to terminator.span⟩

def importDecl : Reader ImportDecl := do
  let keyword ← advance
  let rest (kind : ImportKind) : Reader ImportDecl := do
    let location ← expect .string
    let terminator ← expectMark .semicolon
    return ⟨kind, location.text, keyword.span.to terminator.span⟩
  if ← accept (.keyword .idl) then rest .idl
  else if ← accept (.keyword .protocol) then rest .protocol
  else if ← accept (.keyword .schema) then rest .schema
  else
    failExpecting [.keyword .idl, .keyword .protocol, .keyword .schema]
    return {}

/-- One declaration, or nothing if it fails before it is known which kind it is. -/
def declaration (allowMessages : Bool) : Reader (Option Declaration) := do
  let first ← peek
  if ← isAt (.keyword .importFrom) then return some (.file (← importDecl))
  else
    let doc ← takeDoc first
    let heading : Heading := ⟨← annotations, doc, first⟩
    let c ← get
    if c.failure.isSome then return none
    else
      match c.current.kind with
      | .keyword .record | .keyword .error => return some (.record (← record heading))
      | .keyword .enum => return some (.enum (← enumeration heading))
      | .keyword .fixed => return some (.fixed (← fixed heading))
      | _ =>
        if allowMessages then return some (.message (← message heading))
        else
          failExpecting [.keyword .importFrom, .keyword .record, .keyword .error, .keyword .enum,
            .keyword .fixed, .mark .at]
          return none

def protocol (h : Heading) : Reader SourceUnit.Body := do
  let _ ← expect (.keyword .protocol)
  let name ← identifier
  let _ ← expectMark .leftBrace
  let body ← many inBraces (declaration true)
  let closing ← expectMark .rightBrace
  return .protocol ⟨h.doc, h.annotations, name, body.filterMap id, h.first.span.to closing.span⟩

def schemas : Reader SourceUnit.Body := do
  let space ←
    if ← accept (.keyword .nameSpace) then
      let name ← identifier
      let _ ← expectMark .semicolon
      pure (some name)
    else pure none
  let main ←
    if ← accept (.keyword .schema) then
      let type ← fullType
      let _ ← expectMark .semicolon
      pure (some type)
    else pure none
  let declarations ← many (fun c => c.failure.isNone && !c.atEnd) (declaration false)
  return .schemas space main (declarations.filterMap id)

/-- A whole source. Annotations may come before a protocol; if something else follows them, the
source is read again from its start as a list of types. -/
def sourceUnit : Reader SourceUnit := do
  let start ← get
  let first ← peek
  let annotations ← annotations
  if (← get).failure.isSome then return {}
  else
    let body ←
      if ← isAt (.keyword .protocol) then
        let doc ← takeDoc first
        protocol ⟨annotations, doc, first⟩
      else
        set start
        schemas
    let c ← get
    if c.failure.isNone && !c.atEnd then failExpecting [.endOfFile]
    let orphans := (c.docs.zipIdx.filter fun (_, i) => !c.used.contains i).map fun (d, _) => d.span
    return ⟨body, orphans⟩

end Reader

namespace SourceUnit

/-- The unit that a token list says, as far as it can be read, and the problem that ended the
reading. -/
def ofTokens (tokens : List Token) (docs : List DocComment) :
    SourceUnit × Option (SyntaxProblem × Span) :=
  match tokens with
  | [] => ({}, none)
  | first :: _ =>
    let (unit, c) := Reader.sourceUnit.run { docs := docs, previous := first, rest := tokens }
    (unit, c.failure)

/-- The problem of a reading as a diagnostic. -/
def diagnostics (file : Text) (failure : Option (SyntaxProblem × Span)) : List Diagnostic :=
  failure.toList.map fun (p, span) =>
    { kind := p.kind, message := p.message, span := some span, file := file }

end SourceUnit

end AvroIdl
