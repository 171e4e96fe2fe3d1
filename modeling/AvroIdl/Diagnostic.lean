import AvroIdl.Source

/-!
# Diagnostics

What the compiler reports: a kind, which fixes the code and whether it is a warning, a message, and
the place it is about. A diagnostic may bundle related ones. What a library throws takes the place
of an error until it has left the compiler, but is never reported.
-/
namespace AvroIdl

namespace Diagnostic

inductive Kind where
  | syntaxError
  | invalidName
  | invalidEscape
  | duplicateDefinition
  | duplicateEnumSymbol
  | duplicateNamespaceAnnotations
  | duplicateAnnotations
  | duplicateUnionBranch
  | invalidAnnotations
  | nestedUnion
  | unresolvedReferences
  | unresolvedReference
  | invalidDefault
  | incompleteRecordDefault
  | invalidLogicalType
  | invalidOneWayMessage
  | numericRangeError
  | nestingTooDeep
  | importNotFound
  | importReadError
  | importParseError
  | importCycle
  | ignoredAnnotations
  | ignoredReferenceProperties
  | ignoredImportedMessages
  | orphanDocComment
  /-- A kind that only another tool knows. -/
  | unknown
  /-- No diagnostic: the JSON library has thrown, and nothing in the compiler catches it. -/
  | fault
  deriving DecidableEq, Repr

namespace Kind

/-- The kinds of this compiler, errors first. -/
def all : List Kind :=
  [syntaxError, invalidName, invalidEscape, duplicateDefinition, duplicateEnumSymbol,
    duplicateNamespaceAnnotations, duplicateAnnotations, duplicateUnionBranch, invalidAnnotations,
    nestedUnion, unresolvedReferences, unresolvedReference, invalidDefault,
    incompleteRecordDefault, invalidLogicalType, invalidOneWayMessage, numericRangeError,
    nestingTooDeep, importNotFound, importReadError, importParseError, importCycle,
    ignoredAnnotations, ignoredReferenceProperties, ignoredImportedMessages, orphanDocComment]

def text : Kind → Text
  | syntaxError => "SyntaxError"
  | invalidName => "InvalidName"
  | invalidEscape => "InvalidEscape"
  | duplicateDefinition => "DuplicateDefinition"
  | duplicateEnumSymbol => "DuplicateEnumSymbol"
  | duplicateNamespaceAnnotations => "DuplicateNamespaceAnnotation"
  | duplicateAnnotations => "DuplicateAnnotation"
  | duplicateUnionBranch => "DuplicateUnionBranch"
  | invalidAnnotations => "InvalidAnnotation"
  | nestedUnion => "NestedUnion"
  | unresolvedReferences => "UnresolvedReferences"
  | unresolvedReference => "UnresolvedReference"
  | invalidDefault => "InvalidDefault"
  | incompleteRecordDefault => "IncompleteRecordDefault"
  | invalidLogicalType => "InvalidLogicalType"
  | invalidOneWayMessage => "InvalidOneWayMessage"
  | numericRangeError => "NumericRangeError"
  | nestingTooDeep => "NestingTooDeep"
  | importNotFound => "ImportNotFound"
  | importReadError => "ImportReadError"
  | importParseError => "ImportParseError"
  | importCycle => "ImportCycle"
  | ignoredAnnotations => "IgnoredAnnotation"
  | ignoredReferenceProperties => "IgnoredReferenceProperties"
  | ignoredImportedMessages => "IgnoredImportedMessages"
  | orphanDocComment => "OrphanDocComment"
  | unknown => "Unknown"
  | fault => "Fault"

/-- The code of a kind: 2xxx for syntax, 3xxx for one declaration, 4xxx for the whole unit and 5xxx
for imports. -/
def code : Kind → Text
  | syntaxError => "AVDL-E2100"
  | invalidName => "AVDL-E3001"
  | invalidEscape => "AVDL-E3002"
  | duplicateDefinition => "AVDL-E3003"
  | duplicateEnumSymbol => "AVDL-E3004"
  | duplicateNamespaceAnnotations => "AVDL-E3005"
  | duplicateAnnotations => "AVDL-E3006"
  | duplicateUnionBranch => "AVDL-E3007"
  | invalidAnnotations => "AVDL-E3008"
  | nestedUnion => "AVDL-E3009"
  | invalidLogicalType => "AVDL-E3010"
  | invalidOneWayMessage => "AVDL-E3011"
  | numericRangeError => "AVDL-E3012"
  | nestingTooDeep => "AVDL-E3013"
  | invalidDefault => "AVDL-E3014"
  | unresolvedReferences => "AVDL-E4001"
  | unresolvedReference => "AVDL-E4002"
  | incompleteRecordDefault => "AVDL-E4003"
  | importNotFound => "AVDL-E5001"
  | importReadError => "AVDL-E5002"
  | importParseError => "AVDL-E5003"
  | importCycle => "AVDL-E5004"
  | orphanDocComment => "AVDL-W2001"
  | ignoredAnnotations => "AVDL-W3001"
  | ignoredReferenceProperties => "AVDL-W3002"
  | ignoredImportedMessages => "AVDL-W3003"
  | unknown | fault => "AVDL-E0000"

def isWarning : Kind → Bool
  | ignoredAnnotations | ignoredReferenceProperties | ignoredImportedMessages
  | orphanDocComment => true
  | _ => false

end Kind

end Diagnostic

structure Diagnostic where
  kind : Diagnostic.Kind
  message : Text
  span : Option Span := none
  file : Text := []
  help : Option Text := none
  related : List Diagnostic := []
  /-- The code shown; a stage may use a finer one than its kind has. -/
  code : Text := kind.code
  deriving BEq, Repr

namespace Diagnostic

def isWarning (d : Diagnostic) : Bool := d.kind.isWarning

/-- Whether this stands for what a library has thrown. -/
def isFault (d : Diagnostic) : Bool := d.kind == .fault

/-- Whether some diagnostic is more than a warning. -/
def hasErrors (ds : List Diagnostic) : Bool := ds.any fun d => !d.isWarning

/-- The first line of a diagnostic, and the help below it. -/
def headLines (indent : Text) (d : Diagnostic) : Text :=
  let file : Text := if d.file.isEmpty then [] else d.file ++ " "
  let place : Text :=
    match d.span with
    | none => []
    | some s => "L" ++ Text.ofNat s.start.line ++ ":C" ++ Text.ofNat s.start.column ++ " "
  let help : Text :=
    match d.help with
    | none => []
    | some h => indent ++ "    help: " ++ h ++ "\n"
  indent ++ d.code ++ " " ++ file ++ place ++ "-> " ++ d.message ++ "\n" ++ help

mutual

/-- The lines of a diagnostic, those of its related ones indented by four. -/
def lines (indent : Text) : Diagnostic → Text
  | ⟨kind, message, span, file, help, related, code⟩ =>
    headLines indent ⟨kind, message, span, file, help, [], code⟩ ++
      relatedLines (indent ++ "    ") related

def relatedLines (indent : Text) : List Diagnostic → Text
  | [] => []
  | d :: ds => lines indent d ++ relatedLines indent ds

end

/-- A diagnostic as it is shown to the user. -/
def format (d : Diagnostic) : Text := lines [] d

end Diagnostic

end AvroIdl
