import AvroIdl.Literal.Float
import AvroIdl.Literal.Integer
import AvroIdl.Literal.Quoted
import AvroIdl.Tree

/-!
# JSON values in a source

A value of a source tree denotes a JSON value once its literals are decoded. The first literal that
is wrong decides the problem, and its place is kept.
-/
namespace AvroIdl.Literal

/-- A problem and the place of its literal. -/
abbrev Fault := Problem × Span

/-- Names the place of what can go wrong. -/
def located {α : Type} (span : Span) : Except Problem α → Except Fault α
  | .ok a => .ok a
  | .error p => .error (p, span)

def decodeScalar (text : Text) : JsonNode.Scalar → Except Problem Json
  | .string => return .string (← decodeString text)
  | .integer => return .integer (← decodeInteger text)
  | .float => decodeFloat text
  | .true => .ok (.bool true)
  | .false => .ok (.bool false)
  | .null => .ok .null

mutual

/-- The value that a node denotes. -/
def decodeJson : JsonNode → Except Fault Json
  | .object members _ => return .object (← decodeMembers [] members)
  | .array elements _ => return .array (← decodeElements elements)
  | .scalar kind text span => located span (decodeScalar text kind)

/-- The members of an object, added to those before them. -/
def decodeMembers (done : Members) : List (Text × Span × JsonNode) → Except Fault Members
  | [] => .ok done
  | (key, keySpan, value) :: rest => do
    let key ← located keySpan (decodeString key)
    let value ← decodeJson value
    decodeMembers (done.put key value) rest

def decodeElements : List JsonNode → Except Fault (List Json)
  | [] => .ok []
  | e :: es => do
    let value ← decodeJson e
    return value :: (← decodeElements es)

end

end AvroIdl.Literal
