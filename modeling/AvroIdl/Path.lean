import AvroIdl.Text

/-!
# Paths

A path is kept as it is written, because the system's limit on its length counts every byte. What
it says is read from that: whether it starts at the root, and its elements. Repeated slashes are
one; a slash at the end leaves an empty last element, so `d` and `d/` say different things.
-/
namespace AvroIdl

structure Path where
  written : Text := []
  deriving DecidableEq, Repr

namespace Path

/-- The path that a text says. -/
def ofText (t : Text) : Path := ⟨t⟩

def isEmpty (p : Path) : Bool := p.written.isEmpty

def isRooted (p : Path) : Bool := p.written.head? = some Byte.slash

/-- The pieces between slashes; only the last one may be empty. -/
def pieces : List Text → List Text
  | [] => []
  | [last] => [last]
  | piece :: rest => if piece.isEmpty then pieces rest else piece :: pieces rest

def elements (p : Path) : List Text :=
  let found := pieces (Text.split Byte.slash p.written)
  if found = [[]] then [] else found

/-- The path with these elements, written without repeated slashes. -/
def ofElements (isRooted : Bool) (elements : List Text) : Path :=
  ⟨(if isRooted then "/" else "") ++ Text.join "/" elements⟩

/-- The path that says the same without repeated slashes. Two paths say the same if these are
equal. -/
def plain (p : Path) : Path := ofElements p.isRooted p.elements

/-- The text by which a path is shown. -/
def text (p : Path) : Text := p.plain.written

/-- Whether the path ends with the name of something. -/
def hasName (p : Path) : Bool := p.elements.getLast?.any fun e => !e.isEmpty

/-- The path without its last element and the slashes before that. A path without elements is its
own parent. -/
def parent (p : Path) : Path :=
  if p.elements.isEmpty then p
  else
    let shorter := p.written.reverse.dropWhile (· != Byte.slash)
    match shorter.dropWhile (· == Byte.slash) with
    | [] => ofElements p.isRooted []
    | before => ⟨before.reverse⟩

/-- The second path seen from the first one. -/
def join (p q : Path) : Path :=
  if q.isRooted || p.isEmpty then q
  else ⟨p.written ++ (if p.hasName then "/" else "") ++ q.written⟩

def dot : Text := "."

def dotDot : Text := ".."

/-- The names that remain of the elements, last one first, and whether a slash follows them. An
element `..` takes away the name before it, if there is one, and nothing at the root. -/
def reduce (isRooted : Bool) : (names : List Text) → (slash : Bool) → List Text → List Text × Bool
  | names, slash, [] => (names, slash)
  | names, slash, e :: es =>
    if e = dotDot then
      match names with
      | [] => if isRooted then reduce isRooted [] slash es else reduce isRooted [e] false es
      | name :: below =>
        if name = dotDot then reduce isRooted (e :: names) false es
        else reduce isRooted below true es
    else if e = dot ∨ e.isEmpty then reduce isRooted names true es
    else reduce isRooted (e :: names) false es

/-- The path without dots and without names that `..` takes away. A path from which nothing remains
is the dot. -/
def normal (p : Path) : Path :=
  if p.isEmpty then p
  else
    match reduce p.isRooted [] false p.elements with
    | ([], _) => ofElements p.isRooted (if p.isRooted then [] else [dot])
    | (last :: before, slash) =>
      let names := (last :: before).reverse
      ofElements p.isRooted (if slash && last != dotDot then names ++ [[]] else names)

/-- What follows the last dot of the name, with the dot; a dot at the start does not count. -/
def extension (p : Path) : Text :=
  match p.elements.getLast? with
  | none => []
  | some name =>
    if name = dotDot then []
    else
      match Text.splitLast Byte.dot name with
      | some (_ :: _, after) => Byte.dot :: after
      | _ => []

/-- Element by element comparison; a beginning comes before what it begins. -/
def elementsLe : List Text → List Text → Bool
  | [], _ => true
  | _ :: _, [] => false
  | a :: as, b :: bs => if a = b then elementsLe as bs else Text.le a b

/-- Rooted paths come after the others. -/
def le (p q : Path) : Bool :=
  if p.isRooted = q.isRooted then elementsLe p.elements q.elements else q.isRooted

end Path

end AvroIdl
