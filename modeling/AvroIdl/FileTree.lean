import AvroIdl.Path

/-!
# File trees

The files and directories that a run can see, each at its place from the root. A path is followed
through them the way the system does it: every element but the last must be a directory, names
and whole paths have a greatest length, and a zero byte ends a path.

There are no symbolic links in a tree. What the system has at the end of a link stands in the tree
at the place of the link, as a directory or file of its own. So the canonical path of a file that is
reached through a link keeps the name of the link, where the system would give the place that it
leads to: a file with two names by a link is two files here, and all that is proved about canonical
paths is about trees without links.
-/
namespace AvroIdl

/-- A place in the tree: the names from the root. -/
abbrev Place := List Text

namespace FileTree

inductive Node where
  | directory
  | file (contents : Text)
  deriving DecidableEq, Repr

/-- Why nothing is found at a path. -/
inductive Absence where
  | missing
  | tooLong
  deriving DecidableEq, Repr

/-- The greatest number of bytes of a name. -/
def maxName : Nat := 255

/-- The number of bytes that a path, as it is written, has to stay below. -/
def pathLimit : Nat := 4096

end FileTree

structure FileTree where
  /-- The nodes below the root. -/
  nodes : List (Place × FileTree.Node) := []
  /-- The working directory. -/
  current : Place := []
  deriving DecidableEq, Repr

namespace FileTree

/-- The node at a place; the root is always there. -/
def node? (t : FileTree) (place : Place) : Option Node :=
  if place.isEmpty then some .directory else t.nodes.lookup place

/-- Puts a node at a place. -/
def put (t : FileTree) (place : Place) (n : Node) : FileTree :=
  { t with nodes := (place, n) :: t.nodes.filter fun (p, _) => p != place }

theorem node?_put {place : Place} (h : place ≠ []) (t : FileTree) (n : Node) :
    (t.put place n).node? place = some n := by
  simp [node?, put, h]

/-- Makes the directories on the way to a place and the place itself. -/
def putDirectory (t : FileTree) (place : Place) : FileTree :=
  (List.range place.length).foldl (fun t i =>
    if (t.node? (place.take (i + 1))).isNone then t.put (place.take (i + 1)) .directory else t) t

/-- Puts a file at a place, with the directories on the way to it. -/
def putFile (t : FileTree) (place : Place) (contents : Text) : FileTree :=
  (t.putDirectory place.dropLast).put place (.file contents)

/-- Follows elements from a place. -/
def walk (t : FileTree) : Place → List Text → Except Absence (Place × Node)
  | place, [] =>
    match t.node? place with
    | some n => .ok (place, n)
    | none => .error .missing
  | place, e :: es =>
    if t.node? place = some .directory then
      if e.isEmpty ∨ e = Path.dot then walk t place es
      else if e = Path.dotDot then walk t place.dropLast es
      else if maxName < e.length then .error .tooLong
      else walk t (place ++ [e]) es
    else .error .missing

/-- A path as the system takes it, which ends at a zero byte. -/
def systemPath (p : Path) : Path := ⟨p.written.takeWhile (· != 0)⟩

/-- The place that a path leads to and what is there. -/
def locate (t : FileTree) (p : Path) : Except Absence (Place × Node) :=
  let p := systemPath p
  if p.isEmpty then .error .missing
  else if pathLimit ≤ p.written.length then .error .tooLong
  else walk t (if p.isRooted then [] else t.current) p.elements

/-- The contents of the file at a path. -/
def read? (t : FileTree) (p : Path) : Option Text :=
  match t.locate p with
  | .ok (_, .file contents) => some contents
  | _ => none

def isFile (t : FileTree) (p : Path) : Bool := (t.read? p).isSome

/-- The path from the root to a place. -/
def pathTo (place : Place) : Path := .ofElements true place

/-- Splits elements after the longest beginning that leads somewhere, and gives its place; nothing
if a name on the way is too long. -/
def existing (t : FileTree) (isRooted : Bool) :
    (done : List Text) → (found : Option Place) → List Text → Option (Option Place × List Text)
  | _, found, [] => some (found, [])
  | done, found, e :: es =>
    match t.locate (.ofElements isRooted (done ++ [e])) with
    | .ok (place, _) => existing t isRooted (done ++ [e]) (some place) es
    | .error .missing => some (found, e :: es)
    | .error .tooLong => none

/-- The one path of a file: the longest beginning that exists is replaced by its place, and what
follows is reduced to names. A path of which nothing exists stays relative. -/
def canonical (t : FileTree) (p : Path) : Path :=
  let absolute : Path := if p.isRooted then p else (pathTo t.current).join p
  match t.locate p with
  | .ok (place, _) => pathTo place
  | .error .tooLong => absolute.normal
  | .error .missing =>
    match t.existing p.isRooted [] (if p.isRooted then some [] else none) p.elements with
    | none => absolute.normal
    | some (found, rest) =>
      let start : Path :=
        match found with
        | some place => pathTo place
        | none => {}
      (rest.foldl (fun q e => q.join ⟨e⟩) start).normal

/-- Whether the second place lies below the first, or is the same. -/
def isWithin (outer inner : Place) : Bool := outer.isPrefixOf inner

/-- The files below a place, each with the names that lead there. -/
def filesBelow (t : FileTree) (place : Place) : List Place :=
  t.nodes.filterMap fun (p, n) =>
    match n with
    | .file _ => if isWithin place p then some (p.drop place.length) else none
    | .directory => none

/-- The directories below a place, without the place itself. -/
def directoriesBelow (t : FileTree) (place : Place) : List Place :=
  t.nodes.filterMap fun (p, n) =>
    if n = .directory ∧ isWithin place p ∧ p ≠ place then some (p.drop place.length) else none

end FileTree

end AvroIdl
