import AvroIdl.Diagnostic
import AvroIdl.Schema.Default
import AvroIdl.Token

/-!
# What can be wrong with declarations

The errors that stop the building of a source, and the warnings that do not. An order that is no
word is shown in its message; if it cannot be printed, the printer throws before there is one.
-/
namespace AvroIdl.Build

/-- The number of types that may enclose one. -/
def maxNesting : Nat := 256

inductive Problem where
  | name (p : Name.Problem)
  | illegalNamespace (space : Text)
  | importsUnavailable (file : Text)
  | duplicateNamespace
  | duplicateIntercepted (key : Text)
  | duplicateProperty (key : Text)
  | namespaceNotString
  | aliasesNotStrings
  | badOrder (value : Json)
  | unprintableOrder (value : Json)
  | illegalSymbol (symbol : Text)
  | duplicateSymbol (symbol enum : Text)
  | unknownDefaultSymbol (symbol enum : Text)
  | illegalMessage (name : Text)
  | duplicateMessage (name : Text)
  | oneWayResult (message : Text)
  | illegalField (name owner : Text)
  | duplicateField (name owner : Text)
  | duplicateParameter (name owner : Text)
  | invalidDefault (field owner : Text) (cause : Default.Mismatch)
  | unexpectedKeyword (keyword : Keyword)
  | decimalPrecision (written : Text)
  | decimalScale (written : Text)
  | tooDeep
  | nestedUnion
  | duplicateBranch (key : Text)
  | optionalNull
  deriving BEq, Repr

namespace Problem

def kind : Problem → Diagnostic.Kind
  | name _ | illegalNamespace _ | illegalSymbol _ | illegalMessage _ | illegalField _ _ =>
    .invalidName
  | importsUnavailable _ => .importNotFound
  | duplicateNamespace => .duplicateNamespaceAnnotations
  | duplicateIntercepted _ | duplicateProperty _ => .duplicateAnnotations
  | namespaceNotString | aliasesNotStrings | badOrder _ => .invalidAnnotations
  | unprintableOrder _ => .fault
  | duplicateSymbol _ _ => .duplicateEnumSymbol
  | unknownDefaultSymbol _ _ | invalidDefault _ _ _ => .invalidDefault
  | duplicateMessage _ | duplicateField _ _ | duplicateParameter _ _ => .duplicateDefinition
  | oneWayResult _ => .invalidOneWayMessage
  | unexpectedKeyword _ => .syntaxError
  | decimalPrecision _ | decimalScale _ => .invalidLogicalType
  | tooDeep => .nestingTooDeep
  | nestedUnion => .nestedUnion
  | duplicateBranch _ | optionalNull => .duplicateUnionBranch

def message : Problem → Text
  | name p => p.message
  | illegalNamespace s => "Illegal namespace '" ++ s ++ "'."
  | importsUnavailable f => "Imports are not available when compiling '" ++ f ++ "'."
  | duplicateNamespace => "Duplicate @namespace annotation."
  | duplicateIntercepted a => "Duplicate @" ++ a ++ " annotation."
  | duplicateProperty a => "Duplicate annotation '@" ++ a ++ "'."
  | namespaceNotString => "@namespace must be a string."
  | aliasesNotStrings => "@aliases must be an array of strings."
  | badOrder v =>
    "@order must be \"ascending\", \"descending\" or \"ignore\", not " ++ v.compact ++ "."
  | unprintableOrder _ => "<json type error>"
  | illegalSymbol s => "Illegal enum symbol '" ++ s ++ "'."
  | duplicateSymbol s e => "Duplicate enum symbol '" ++ s ++ "' in enum '" ++ e ++ "'."
  | unknownDefaultSymbol s e =>
    "Default symbol '" ++ s ++ "' is not a symbol of enum '" ++ e ++ "'."
  | illegalMessage n => "Illegal message name '" ++ n ++ "'."
  | duplicateMessage n => "Duplicate message '" ++ n ++ "'."
  | oneWayResult m => "One-way message '" ++ m ++ "' must return void."
  | illegalField n o => "Illegal field name '" ++ n ++ "' in " ++ o ++ "."
  | duplicateField n o => "Duplicate field '" ++ n ++ "' in " ++ o ++ "."
  | duplicateParameter n o => "Duplicate parameter '" ++ n ++ "' in " ++ o ++ "."
  | invalidDefault f o cause =>
    "Invalid default for field '" ++ f ++ "' in " ++ o ++ ": " ++ cause.message ++ "."
  | unexpectedKeyword k => "Unexpected type keyword '" ++ k.text ++ "'."
  | decimalPrecision w => "Invalid " ++ w ++ ": precision must be a positive 32-bit integer."
  | decimalScale w => "Invalid " ++ w ++ ": scale must be between 0 and the precision."
  | tooDeep => "Type nesting exceeds " ++ Text.ofNat maxNesting ++ " levels."
  | nestedUnion => "Unions may not immediately contain other unions."
  | duplicateBranch k => "Duplicate branch '" ++ k ++ "' in union."
  | optionalNull => "Duplicate branch 'null' in optional type."

def diagnostic (p : Problem) (file : Text) (span : Span) : Diagnostic :=
  { kind := p.kind, message := p.message, span := some span, file := file }

end Problem

inductive Warning where
  | orphanDoc
  | ignoredMessage (name : Text)
  | unionAnnotations (name : Text)
  | referenceProperties (full : Text)
  deriving DecidableEq, Repr

namespace Warning

def kind : Warning → Diagnostic.Kind
  | orphanDoc => .orphanDocComment
  | ignoredMessage _ => .ignoredImportedMessages
  | unionAnnotations _ => .ignoredAnnotations
  | referenceProperties _ => .ignoredReferenceProperties

def message : Warning → Text
  | orphanDoc => "Ignoring out-of-place documentation comment."
  | ignoredMessage n => "Ignoring imported message '" ++ n ++ "' outside a protocol."
  | unionAnnotations n => "Ignoring annotation '@" ++ n ++ "' on a union type."
  | referenceProperties f =>
    "Annotations on the reference to '" ++ f ++
      "' stay on the reference and are not written to the output."

def diagnostic (w : Warning) (file : Text) (span : Span) : Diagnostic :=
  { kind := w.kind, message := w.message, span := some span, file := file }

end Warning

end AvroIdl.Build
