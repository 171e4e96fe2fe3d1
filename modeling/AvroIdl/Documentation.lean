import AvroIdl.Text

/-!
# Documentation text

The text of a documentation comment is what stands between its delimiters, without the indentation
that the lines share: either a column of stars, or blanks that all lines after the first start with.
-/
namespace AvroIdl.Documentation

def isBlank (b : UInt8) : Bool := b == Byte.space || b == 0x09

/-- Blanks and the ends of lines. -/
def isMargin (b : UInt8) : Bool := isBlank b || b == Byte.newline || b == Byte.carriageReturn

/-- A line without a carriage return at its end. -/
def dropCarriageReturn (line : Text) : Text :=
  if line.getLast? = some Byte.carriageReturn then line.dropLast else line

def lines (t : Text) : List Text := (Text.split Byte.newline t).map dropCarriageReturn

/-- A line from its first byte on that is not blank. -/
def content (line : Text) : Text := line.dropWhile isBlank

def indent (line : Text) : Text := line.takeWhile isBlank

/-- The stars that the first line starts with, at most two. -/
def stars (first : Text) : Text := (first.take 2).takeWhile fun b => b == Byte.star

/-- A line without its stars and at most one space after them. -/
def dropStars (count : Nat) (line : Text) : Text :=
  match line.drop count with
  | b :: rest => if b = Byte.space then rest else b :: rest
  | [] => []

/-- The lines without their stars, if every line that is not blank starts with as many as the
first one. -/
def stripStars (first : Text) (later : List Text) : Option (List Text) :=
  let column := stars first
  let starred (line : Text) : Bool := (content line).isEmpty || Text.hasStart column (content line)
  let strip (line : Text) : Text :=
    if (content line).isEmpty then [] else dropStars column.length (content line)
  if column.isEmpty || !later.all starred then none
  else some (dropStars column.length first :: later.map strip)

/-- The longest beginning that two texts share. -/
def commonStart : Text → Text → Text
  | c :: s, d :: t => if c = d then c :: commonStart s t else []
  | _, _ => []

/-- The blanks that all lines start with that are not blank altogether. -/
def commonIndent (later : List Text) : Text :=
  match (later.filter fun line => !(content line).isEmpty).map indent with
  | [] => []
  | i :: rest => rest.foldl commonStart i

/-- The lines without their common blanks, if there are any. A line shorter than these is kept. -/
def stripBlanks (first : Text) (later : List Text) : Option (List Text) :=
  let common := (commonIndent later).length
  if common = 0 then none
  else some (first :: later.map fun line => if common ≤ line.length then line.drop common else line)

/-- The text without the indentation of its lines. One line is kept as it is. -/
def stripIndents (t : Text) : Text :=
  match lines t with
  | first :: second :: rest =>
    match stripStars first (second :: rest) with
    | some stripped => Text.join [Byte.newline] stripped
    | none =>
      match stripBlanks first (second :: rest) with
      | some stripped => Text.join [Byte.newline] stripped
      | none => t
  | _ => t

/-- The documentation in a comment with its delimiters; a comment of blanks only has none. -/
def ofComment (comment : Text) : Option Text :=
  match Text.dropStart "/**" comment with
  | none => none
  | some rest =>
    if comment.length < 5 ∨ rest.drop (rest.length - 2) ≠ "*/" then none
    else
      let body := Text.trim isMargin (rest.take (rest.length - 2))
      if body.isEmpty then none else some (stripIndents body)

end AvroIdl.Documentation
