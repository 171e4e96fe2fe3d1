import AvroIdl.Tool.Demand

/-!
# The command line program

The program gathers the files that a run looks at into a file tree, runs the tool on it, and then
brings the system to what the tool left: new directories, changed files, and what was printed.
Symbolic links are followed when the files are gathered, and the tree has what they lead to in their
place.
-/
namespace AvroIdl.Program

/-- The bytes of a string. -/
def bytes (s : String) : Text := s.toUTF8.toList

/-- The system's name of a place, which has to be valid UTF-8. -/
def systemName? (place : Place) : Option String :=
  String.fromUTF8? ⟨(FileTree.pathTo place).text.toArray⟩

/-- What the system has at a place, or where a link there leads to. -/
def inspect (place : Place) : IO (Option FileTree.Node) := do
  match systemName? place with
  | none => return none
  | some name =>
    try
      let path ← IO.FS.realPath name
      if ← path.isDir then return some .directory
      else return some (.file (← IO.FS.readBinFile path).toList)
    catch _ => return none

/-- Adds to the tree what the system has along elements from a place. -/
def lookFrom (tree : FileTree) (place : Place) : List Text → IO FileTree
  | [] => return tree
  | e :: es => do
    if e.isEmpty || e == Path.dot then lookFrom tree place es
    else if e == Path.dotDot then lookFrom tree place.dropLast es
    else
      let inner := place ++ [e]
      match ← inspect inner with
      | none => return tree
      | some node => lookFrom (tree.put inner node) inner es

/-- Adds to the tree what the system has along a path. -/
def lookAt (tree : FileTree) (path : Path) : IO FileTree :=
  let path := FileTree.systemPath path
  lookFrom tree (if path.isRooted then [] else tree.current) path.elements

/-- Adds to the tree what the system has below a directory. Links to directories are not
followed. -/
partial def lookBelow (tree : FileTree) (place : Place) : IO FileTree := do
  match systemName? place with
  | none => return tree
  | some name =>
    let directory ← IO.FS.realPath name
    (← directory.readDir).foldlM (fun tree entry => do
      let inner := place ++ [bytes entry.fileName]
      match ← inspect inner with
      | none => return tree
      | some .directory =>
        let tree := tree.put inner .directory
        if (← entry.path.symlinkMetadata).type == .symlink then return tree
        else lookBelow tree inner
      | some node => return tree.put inner node) tree

/-- Adds to the tree what the system has at paths and at those that the sources there import. -/
partial def gather (o : CommandLine.Options) (tree : FileTree) (seen : List Path) :
    List Path → IO FileTree
  | [] => return tree
  | p :: ps => do
    let tree ← lookAt tree p
    let path := tree.canonical p
    if seen.contains path then gather o tree seen ps
    else
      let further :=
        match tree.read? path with
        | some source => Tool.importPaths o path source
        | none => []
      gather o tree (path :: seen) (further ++ ps)

/-- The part of the file system that decides a run. -/
def prepare (o : CommandLine.Options) (stdin : Text) (start : FileTree) : IO FileTree := do
  let tree ← gather o start [] (Tool.firstPaths o stdin start)
  match Tool.inputDirectory? o tree with
  | none => return tree
  | some place =>
    let tree ← lookBelow tree place
    gather o tree [] (Tool.inputSources o tree)

/-- Makes the directories and writes the files in which the second tree differs from the first. -/
def update (before after : FileTree) : IO Unit := do
  for place in after.directoriesBelow [] do
    if (before.node? place).isNone then
      if let some name := systemName? place then IO.FS.createDirAll name
  for (place, contents) in FileTree.changedFiles before after do
    if let some name := systemName? place then
      IO.FS.writeBinFile name ⟨contents.toArray⟩

/-- The tree with the working directory alone. -/
def startTree : IO FileTree := do
  let current := (Path.ofText (bytes (← IO.currentDir).toString)).elements
  return { FileTree.putDirectory {} current with current := current }

/-- Runs the tool and gives its exit code. What stands where the first attempt would write is looked
at before the run that counts. -/
def run (arguments : List Text) : IO UInt32 := do
  let start ← startTree
  let (stdin, tree) ←
    match Tool.working? arguments with
    | none => pure ([], start)
    | some o => do
      let stdin ←
        if Tool.readsStandardInput o then
          pure (← (← IO.getStdin).readBinToEnd).toList
        else pure []
      pure (stdin, ← prepare o stdin start)
  let attempt := Tool.run arguments stdin tree
  let tree ← (FileTree.changedFiles tree attempt.tree).foldlM
    (fun tree (place, _) => lookAt tree (FileTree.pathTo place)) tree
  let result := Tool.run arguments stdin tree
  update tree result.tree
  let stdout ← IO.getStdout
  stdout.write ⟨result.stdout.toArray⟩
  stdout.flush
  let stderr ← IO.getStderr
  stderr.write ⟨result.stderr.toArray⟩
  return result.exit.toUInt32

end AvroIdl.Program

def main (arguments : List String) : IO UInt32 :=
  AvroIdl.Program.run (arguments.map AvroIdl.Program.bytes)
