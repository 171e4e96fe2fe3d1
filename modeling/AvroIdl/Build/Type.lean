import AvroIdl.Build.Annotations
import AvroIdl.Diagnostic.Report
import AvroIdl.Schema.Logical

/-!
# Types of a source

The schema that a type in a source denotes in a scope. A question mark makes a union with null of
it, annotations become properties or a logical type.
-/
namespace AvroIdl.Build

/-- The file that is built and the namespace in force. -/
structure Context where
  file : Text
  scope : Scope := {}

/-- Stops at a place of the file. -/
def stop {α : Type} (c : Context) (p : Problem) (span : Span) : Report α :=
  Report.fail (p.diagnostic c.file span)

def warn (c : Context) (w : Warning) (span : Span) : Report Unit :=
  Report.warn (w.diagnostic c.file span)

/-- A literal at a place of the file. -/
def decoded {α : Type} (c : Context) (span : Span) : Except Literal.Problem α → Report α
  | .ok a => pure a
  | .error p => Report.fail (p.diagnostic c.file span)

def decodedJson (c : Context) (node : JsonNode) : Report Json :=
  match Literal.decodeJson node with
  | .ok value => pure value
  | .error (p, span) => Report.fail (p.diagnostic c.file span)

/-- The schema of a keyword for a type. -/
def keywordSchema? : Keyword → Option Schema
  | .null => some (.plain .null)
  | .boolean => some (.plain .boolean)
  | .int => some (.plain .int)
  | .long => some (.plain .long)
  | .float => some (.plain .float)
  | .double => some (.plain .double)
  | .bytes => some (.plain .bytes)
  | .string => some (.plain .string)
  | .date => some (.logicalOver .date 0 0 [] (.plain .int))
  | .timeMs => some (.logicalOver .timeMillis 0 0 [] (.plain .int))
  | .timestampMs => some (.logicalOver .timestampMillis 0 0 [] (.plain .long))
  | .localTimestampMs => some (.logicalOver .localTimestampMillis 0 0 [] (.plain .long))
  | .uuid => some (.logicalOver .uuid 0 0 [] (.plain .string))
  | _ => none

/-- A decimal type, from its precision and scale as they are written. -/
def decimalSchema (c : Context) (precisionText : Text) (scaleText : Option Text) (span : Span) :
    Report Schema := do
  let precision ← decoded c span (Literal.decodeUnsigned32 "Decimal precision" precisionText)
  let scale ←
    match scaleText with
    | none => pure 0
    | some t => decoded c span (Literal.decodeUnsigned32 "Decimal scale" t)
  let scaleWritten : Text :=
    match scaleText with
    | none => []
    | some t => ", " ++ t
  let written : Text := "decimal(" ++ precisionText ++ scaleWritten ++ ")"
  if precision < 1 ∨ Decimal.parameterLimit < precision then
    stop c (.decimalPrecision written) span
  else if precision < scale then stop c (.decimalScale written) span
  else return .logicalOver .decimal precision scale [] (.plain .bytes)

/-- A reference to a name in the scope. -/
def referenceTo (c : Context) (name : Identifier) : Schema :=
  let q := c.scope.qualify name.text
  .reference { name := q.name, space := q.space, span := some name.span }

/-- The schema with the annotations before it. -/
def annotated (c : Context) (mark : TypeMark) (s : Schema) : Report Schema := do
  if mark.annotations.isEmpty then return s
  else
    let set ← Report.ofExcept (AnnotationSet.collect c.file {} mark.annotations)
    let s := s.mapNote fun n => { n with properties := n.properties.merge set.properties }
    match s with
    | .reference r =>
      warn c (.referenceProperties r.full) mark.span
      return s
    | .primitive _ _ => return s.promote
    | _ => return s

/-- The schema at its place. -/
def placed (span : Span) (s : Schema) : Schema :=
  s.mapNote fun n => { n with span := n.span.or (some span) }

/-- The union of null and a schema, if a question mark asks for it. -/
def withMark (c : Context) (mark : TypeMark) (s : Schema) : Report Schema := do
  if !mark.isOptional then return s
  else if s.branchKey = Primitive.null.text then stop c .optionalNull mark.span
  else return .compound (.union true) [.plain .null, s] { span := some mark.span }

/-- What every type but a union gets: its annotations, its place and its question mark. -/
def finished (c : Context) (mark : TypeMark) (s : Schema) : Report Schema := do
  let s ← annotated c mark s
  withMark c mark (placed mark.span s)

/-- Adds a branch to those before it, with their keys. -/
def checkBranch (c : Context) (seen : List Text) (s : Schema) (span : Span) : Report Text := do
  let key := s.branchKey
  if s.isUnion then stop c .nestedUnion span
  else if seen.contains key then stop c (.duplicateBranch key) span
  else return key

def warnAnnotations (c : Context) : List Annotation → Report Unit
  | [] => return
  | a :: as => do
    warn c (.unionAnnotations a.name) a.span
    warnAnnotations c as

mutual

/-- The schema of a type inside `depth` others. -/
def schemaOf (c : Context) (depth : Nat) : TypeNode → Report Schema
  | .primitive k m => do
    if maxNesting < depth then stop c .tooDeep m.span
    else
      match keywordSchema? k with
      | some s => finished c m s
      | none => stop c (.unexpectedKeyword k) m.span
  | .decimal precision scale m => do
    if maxNesting < depth then stop c .tooDeep m.span
    else
      let s ← decimalSchema c precision scale m.span
      finished c m s
  | .reference name m => do
    if maxNesting < depth then stop c .tooDeep m.span
    else finished c m (referenceTo c name)
  | .array items m => do
    if maxNesting < depth then stop c .tooDeep m.span
    else
      let s ← schemaOf c (depth + 1) items
      finished c m (.compound .array [s] {})
  | .map values m => do
    if maxNesting < depth then stop c .tooDeep m.span
    else
      let s ← schemaOf c (depth + 1) values
      finished c m (.compound .map [s] {})
  | .union branches m => do
    if maxNesting < depth then stop c .tooDeep m.span
    else
      let schemas ← branchesOf c (depth + 1) [] branches
      warnAnnotations c m.annotations
      return .compound (.union false) schemas { span := some m.span }

/-- The branches of a union from the left, with the keys of those before them. -/
def branchesOf (c : Context) (depth : Nat) (seen : List Text) :
    List TypeNode → Report (List Schema)
  | [] => return []
  | node :: nodes => do
    let s ← schemaOf c depth node
    let key ← checkBranch c seen s node.mark.span
    return s :: (← branchesOf c depth (key :: seen) nodes)

end

/-- The schema that a type of a source denotes. -/
def typeOf (c : Context) (node : TypeNode) : Report Schema := schemaOf c 0 node

end AvroIdl.Build
