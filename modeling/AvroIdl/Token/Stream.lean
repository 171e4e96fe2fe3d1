import AvroIdl.Diagnostic
import AvroIdl.Token.Lexeme

/-!
# Token streams

The tokens of a source with the documentation comments between them. A documentation comment belongs
to the next token, unless another comment comes in between.
-/
namespace AvroIdl

structure TokenStream where
  tokens : List Token := []
  docs : List DocComment := []
  diagnostics : List Diagnostic := []

namespace TokenStream

/-- The tokens among the pieces, ended by the token for the end of the file. `pending` is the number
of the comment that documents the next token and `docs` the number of documentation comments so
far. -/
def tokensOf (stop : Location) (pending : Option Nat) (docs : Nat) : List Lexeme → List Token
  | [] => [{ kind := .endOfFile, span := ⟨stop, stop⟩, doc := pending }]
  | x :: xs =>
    match x.shape with
    | .blank | .problem _ _ => tokensOf stop pending docs xs
    | .comment => tokensOf stop none docs xs
    | .doc => tokensOf stop (some docs) (docs + 1) xs
    | .token kind text escaped =>
      ⟨kind, x.span, text, escaped, pending⟩ :: tokensOf stop none docs xs

def doc? (x : Lexeme) : Option DocComment :=
  match x.shape with
  | .doc => some ⟨x.text, x.span⟩
  | _ => none

def diagnostic? (file : Text) (x : Lexeme) : Option Diagnostic :=
  match x.shape with
  | .problem p skipped =>
    some { kind := .syntaxError, code := p.code, message := p.message,
           span := some (x.problemSpan skipped), file := file }
  | _ => none

/-- Everything that is read from a source. -/
def ofSource (source file : Text) : TokenStream :=
  let (start, text) := Lexeme.skipMark source
  let pieces := Lexeme.cut start text
  { tokens := tokensOf (start.after text) none 0 pieces
    docs := pieces.filterMap doc?
    diagnostics := pieces.filterMap (diagnostic? file) }

end TokenStream

end AvroIdl
