import AvroIdl.Diagnostic.Mismatch
import AvroIdl.Diagnostic
import AvroIdl.Documentation
import AvroIdl.Tree

/-!
# Reading tokens

A reader moves over the tokens from the left and stops at the first error: from then on no test for
a token succeeds, nothing is consumed, and the token at the error stands in for every token that is
still asked for.
-/
namespace AvroIdl

/-- Why the tokens are no source unit. -/
inductive SyntaxProblem where
  | mismatch (actual : Token) (expected : List Token.Kind)
  | deepType
  | deepJson
  deriving DecidableEq, Repr

/-- The number of types or JSON values that may enclose one. -/
def maxNesting : Nat := 256

namespace SyntaxProblem

def kind : SyntaxProblem → Diagnostic.Kind
  | mismatch _ _ => .syntaxError
  | deepType | deepJson => .nestingTooDeep

def message : SyntaxProblem → Text
  | mismatch t expected => (Mismatch.ofToken t expected).message
  | deepType => "Type nesting exceeds " ++ Text.ofNat maxNesting ++ " levels."
  | deepJson => "JSON value nesting exceeds " ++ Text.ofNat maxNesting ++ " levels."

end SyntaxProblem

/-- Where the reader stands. -/
structure Cursor where
  docs : List DocComment
  /-- The token before the current one. -/
  previous : Token
  /-- The current token and those after it. -/
  rest : List Token
  failure : Option (SyntaxProblem × Span) := none
  /-- The documentation comments that have found their declaration. -/
  used : List Nat := []

namespace Cursor

/-- The current token; past the last one there is only the end of the file. -/
def current (c : Cursor) : Token := c.rest.headD {}

def atEnd (c : Cursor) : Bool := c.current.kind == .endOfFile

def isAt (c : Cursor) (k : Token.Kind) : Bool := c.failure.isNone && c.current.kind == k

def isAtName (c : Cursor) : Bool := c.failure.isNone && c.current.kind.isName

/-- The keyword of a type without parts, if the current token is one. -/
def primitive? (c : Cursor) : Option Keyword :=
  match c.failure, c.current.kind with
  | none, .keyword k => if k.isType then some k else none
  | _, _ => none

/-- One token further, but not past the end of the file. -/
def next (c : Cursor) : Cursor :=
  if c.atEnd then c else { c with previous := c.current, rest := c.rest.tail }

/-- Only the first failure counts. -/
def fail (c : Cursor) (p : SyntaxProblem) : Cursor :=
  if c.failure.isSome then c else { c with failure := some (p, c.current.span) }

end Cursor

/-- A reader of a part of the tokens. -/
abbrev Reader := StateM Cursor

namespace Reader

def peek : Reader Token := return (← get).current

def isAt (k : Token.Kind) : Reader Bool := return (← get).isAt k

def isAtName : Reader Bool := return (← get).isAtName

/-- Moves on and gives the token that was passed. -/
def advance : Reader Token := do
  modify Cursor.next
  return (← get).previous

/-- Passes a token of the kind if there is one. -/
def accept (k : Token.Kind) : Reader Bool := do
  if ← isAt k then
    modify Cursor.next
    return true
  else return false

def fail (p : SyntaxProblem) : Reader Unit := modify fun c => c.fail p

def failExpecting (kinds : List Token.Kind) : Reader Unit :=
  modify fun c => c.fail (.mismatch c.current kinds)

/-- Passes a token of the kind, or fails at the current one. -/
def expect (k : Token.Kind) : Reader Token := do
  if ← isAt k then advance
  else
    failExpecting [k]
    peek

def expectMark (m : Mark) : Reader Token := expect (.mark m)

def identifier : Reader Identifier := do
  if ← isAtName then
    let t ← advance
    return ⟨t.text, t.escaped, t.span⟩
  else
    failExpecting [.identifier]
    return {}

/-- Takes the comment before a token as documentation, unless it has been taken already. -/
def takeDoc (t : Token) : Reader (Option Text) := do
  let c ← get
  match t.doc with
  | none => return none
  | some i =>
    match c.docs[i]? with
    | none => return none
    | some d =>
      if c.used.contains i then return none
      else
        set { c with used := i :: c.used }
        return Documentation.ofComment d.text

/-- Reads parts while the test holds, at most as many as there are steps. -/
def manyWithin {α : Type} (test : Cursor → Bool) (part : Reader α) : Nat → Reader (List α)
  | 0 => return []
  | steps + 1 => do
    if test (← get) then
      let a ← part
      return a :: (← manyWithin test part steps)
    else return []

/-- Reads parts while the test holds. Every part passes a token or fails, so there are no more of
them than tokens. -/
def many {α : Type} (test : Cursor → Bool) (part : Reader α) : Reader (List α) := do
  manyWithin test part ((← get).rest.length + 1)

def separatedWithin {α : Type} (part : Reader α) : Nat → Reader (List α)
  | 0 => return []
  | steps + 1 => do
    let a ← part
    if ← accept (.mark .comma) then return a :: (← separatedWithin part steps)
    else return [a]

/-- Reads one part or more, with commas between them. -/
def separated {α : Type} (part : Reader α) : Reader (List α) := do
  separatedWithin part ((← get).rest.length + 1)

end Reader

end AvroIdl
