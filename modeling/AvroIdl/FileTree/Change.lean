import AvroIdl.FileTree

/-!
# Changing a file tree

Making directories, of which those made before a failure stay, and writing files.
-/
namespace AvroIdl.FileTree

/-- Why a directory cannot be made. -/
inductive Failure where
  | notDirectory
  | fileExists
  | invalidArgument
  | nameTooLong
  deriving DecidableEq, Repr

def Failure.message : Failure → Text
  | notDirectory => "Not a directory"
  | fileExists => "File exists"
  | invalidArgument => "Invalid argument"
  | nameTooLong => "File name too long"

/-- The most directories that are made at once. -/
def maxCreated : Nat := 1000

/-- The beginnings of a path that do not exist, the shortest one first. The argument holds the
elements in reverse; dots are passed over. -/
def missingBeginnings (t : FileTree) (isRooted : Bool) :
    (known : List Path) → List Text → Except Failure (List Path)
  | known, [] => .ok known
  | known, e :: before =>
    let here := Path.ofElements isRooted (e :: before).reverse
    let known := if e = Path.dot ∨ e = Path.dotDot then known else here :: known
    let rest := Path.ofElements isRooted before.reverse
    if maxCreated < known.length then .error .nameTooLong
    else if rest.isEmpty then .ok known
    else
      match t.locate rest with
      | .ok (_, .directory) => .ok known
      | .ok (_, .file _) => .error .notDirectory
      | .error .tooLong => .error .nameTooLong
      | .error .missing => missingBeginnings t isRooted known before

/-- Makes one directory in a directory that exists. -/
def createDirectory (t : FileTree) (p : Path) : Except Failure FileTree :=
  match t.locate p with
  | .ok (_, .directory) => .ok t
  | .ok (_, .file _) => .error .fileExists
  | .error .tooLong => .error .nameTooLong
  | .error .missing =>
    let parent := if p.parent.isEmpty then .ok (t.current, Node.directory) else t.locate p.parent
    match parent, p.elements.getLast? with
    | .ok (place, .directory), some name => .ok (t.put (place ++ [name]) .directory)
    | _, _ => .error .notDirectory

/-- Makes directories from the left, up to the first failure. -/
def createEach (t : FileTree) : List Path → FileTree × Option Failure
  | [] => (t, none)
  | p :: ps =>
    match t.createDirectory p with
    | .ok t => createEach t ps
    | .error f => (t, some f)

/-- Makes a directory and those on the way to it. -/
def createDirectories (t : FileTree) (p : Path) : FileTree × Option Failure :=
  if p.isEmpty then (t, some .invalidArgument)
  else
    match t.locate p with
    | .ok (_, .directory) => (t, none)
    | .ok (_, .file _) => (t, some .notDirectory)
    | .error .tooLong => (t, some .nameTooLong)
    | .error .missing =>
      let elements := if p.hasName then p.elements else p.elements.dropLast
      match t.missingBeginnings p.isRooted [] elements.reverse with
      | .error f => (t, some f)
      | .ok missing => t.createEach missing

/-- Writes a file, in place of one that may be there. Its directory must exist. -/
def write? (t : FileTree) (p : Path) (contents : Text) : Option FileTree :=
  match t.locate p with
  | .ok (place, .file _) => some (t.put place (.file contents))
  | .ok (_, .directory) => none
  | .error .tooLong => none
  | .error .missing =>
    let p := systemPath p
    let parent := if p.parent.isEmpty then .ok (t.current, Node.directory) else t.locate p.parent
    match parent, p.elements.getLast? with
    | .ok (place, .directory), some name =>
      if name.isEmpty ∨ name = Path.dot ∨ name = Path.dotDot then none
      else some (t.put (place ++ [name]) (.file contents))
    | _, _ => none

/-- The places whose files are new or have other contents than before. -/
def changedFiles (before after : FileTree) : List (Place × Text) :=
  after.nodes.filterMap fun (place, n) =>
    match n with
    | .file contents => if before.node? place = some n then none else some (place, contents)
    | .directory => none

end AvroIdl.FileTree
