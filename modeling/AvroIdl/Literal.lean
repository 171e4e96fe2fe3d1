import AvroIdl.Diagnostic

/-!
# Literals

The ways in which a literal of a source can be wrong. Each one gives one diagnostic.
-/
namespace AvroIdl.Literal

inductive Problem where
  | loneBackslash
  | unicodeEscape (sequence : Text)
  | unpairedSurrogate (sequence : Text)
  | unknownEscape (sequence : Text)
  | malformedInteger (raw : Text)
  | integerRange (raw : Text)
  | unsignedRange (what raw : Text)
  | malformedFloat (raw : Text)
  | floatRange (raw : Text)
  deriving DecidableEq, Repr

namespace Problem

def kind : Problem → Diagnostic.Kind
  | loneBackslash | unicodeEscape _ | unpairedSurrogate _ | unknownEscape _ => .invalidEscape
  | malformedInteger _ | malformedFloat _ => .syntaxError
  | integerRange _ | unsignedRange _ _ | floatRange _ => .numericRangeError

def message : Problem → Text
  | loneBackslash => "Invalid escape sequence '\\' at end of string literal."
  | unicodeEscape s => "Invalid unicode escape sequence '" ++ s ++ "'."
  | unpairedSurrogate s => "Unpaired surrogate in escape sequence '" ++ s ++ "'."
  | unknownEscape s => "Invalid escape sequence '" ++ s ++ "'."
  | malformedInteger raw => "Malformed integer literal '" ++ raw ++ "'."
  | integerRange raw => "Integer literal '" ++ raw ++ "' is out of the 64-bit range."
  | unsignedRange what raw => what ++ " " ++ raw ++ " is outside the range 0..4294967295."
  | malformedFloat raw => "Malformed floating point literal '" ++ raw ++ "'."
  | floatRange raw => "Floating point literal '" ++ raw ++ "' is out of range."

def diagnostic (p : Problem) (file : Text) (span : Span) : Diagnostic :=
  { kind := p.kind, message := p.message, span := some span, file := file }

end Problem

end AvroIdl.Literal
