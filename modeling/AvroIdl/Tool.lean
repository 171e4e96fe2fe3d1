import AvroIdl.CommandLine
import AvroIdl.Compilation
import AvroIdl.FileTree.Change

/-!
# The tool

A run of the command line tool on a file tree: what it prints, what it writes and how it ends.
-/
namespace AvroIdl.Tool

structure Run where
  exit : Nat := 0
  /-- A library has thrown. The system ends the program, which goes no further. -/
  aborted : Bool := false
  stdout : Text := []
  stderr : Text := []
  tree : FileTree
  deriving DecidableEq, Repr

namespace Run

def print (r : Run) (t : Text) : Run := { r with stdout := r.stdout ++ t }

def complain (r : Run) (t : Text) : Run := { r with stderr := r.stderr ++ t }

def printIf (r : Run) (condition : Bool) (t : Text) : Run := if condition then r.print t else r

/-- The end of a run that did not succeed. -/
def failed (r : Run) : Run := { r with exit := 1 }

/-- The end of a run that the system ends with the signal for an abort. -/
def abort (r : Run) : Run := { r with exit := 134, aborted := true }

/-- Prints diagnostics with an empty line after each. -/
def diagnose (r : Run) (ds : List Diagnostic) : Run :=
  r.complain (ds.flatMap fun d => d.format ++ "\n")

end Run

def version : Text := "0.1.0"

def helpText : Text :=
  "avdlc - Avro IDL compiler\n" ++
  "Usage:\n" ++
  "  avdlc idl [options] [INPUT|-] [OUTPUT]\n" ++
  "  avdlc idl2schemata [options] INPUT [OUTDIR]\n\n" ++
  "Commands:\n" ++
  "  idl                    Compile to a protocol (.avpr), a schema (.avsc) or a schema array.\n" ++
  "  idl2schemata           Write one <Name>.avsc per named type. A directory INPUT is\n" ++
  "                         searched recursively for .avdl files.\n\n" ++
  "Options:\n" ++
  "  --help                 Show this help text and exit.\n" ++
  "  --version              Show version information and exit.\n" ++
  "  --verbose              Print debug progress.\n" ++
  "  --import-dir <path>    Add a directory to the import search path (repeatable).\n" ++
  "  --import-dir=<path>    Add a directory to the import search path (shorthand).\n"

/-- Why a file could not be written. -/
inductive WriteProblem where
  | directories (path : Path) (cause : FileTree.Failure)
  | outputDirectory (path : Path) (cause : FileTree.Failure)
  | unopened (path : Path)
  deriving DecidableEq, Repr

/-- The wording of a problem, which shows the path as it was written. -/
def WriteProblem.message : WriteProblem → Text
  | directories p cause =>
    "failed to create directories for '" ++ p.written ++ "': " ++ cause.message
  | outputDirectory p cause =>
    "failed to create output directory '" ++ p.written ++ "': " ++ cause.message
  | unopened p => "unable to open '" ++ p.written ++ "' for writing."

/-- Writes a text and a new line to a file, after making the directories on the way to it. -/
def writeTextFile (tree : FileTree) (path : Path) (contents : Text) :
    FileTree × Option WriteProblem :=
  let (tree, failure) :=
    if path.parent.isEmpty then (tree, none) else tree.createDirectories path.parent
  match failure with
  | some f => (tree, some (.directories path f))
  | none =>
    match tree.write? path (contents ++ "\n") with
    | some tree => (tree, none)
    | none => (tree, some (.unopened path))

/-- The file of a named type in a directory. -/
def targetIn (directory : Path) (name : Text) : Path := directory.join (.ofText (name ++ ".avsc"))

/-- Writes schemas from the left, up to the first problem. -/
def writeEach (tree : FileTree) (directory : Path) :
    List Compilation.NamedSchema → FileTree × Option WriteProblem
  | [] => (tree, none)
  | s :: ss =>
    match writeTextFile tree (targetIn directory s.name) s.json with
    | (tree, none) => writeEach tree directory ss
    | (tree, some p) => (tree, some p)

/-- Writes one file for every schema into a directory. -/
def writeSchemata (tree : FileTree) (directory : Path) (schemas : List Compilation.NamedSchema) :
    FileTree × Option WriteProblem :=
  match tree.createDirectories directory with
  | (tree, some f) => (tree, some (.outputDirectory directory f))
  | (tree, none) => writeEach tree directory schemas

def sourceExtension : Text := ".avdl"

/-- The sources that an input stands for: itself, or those below it in order if it is a
directory. -/
def collectSources (tree : FileTree) (input : Path) : Option (List Path) :=
  match tree.locate input with
  | .error _ => none
  | .ok (_, .file _) => some [input]
  | .ok (place, .directory) =>
    let found := (tree.filesBelow place).map fun names => input.join (.ofElements false names)
    let sources := (found.filter fun p => p.extension = sourceExtension).map Path.normal
    some (sources.mergeSort Path.le)

def quoted (t : Text) : Text := "'" ++ t ++ "'"

/-- What a compiled file is reported as. -/
def summary (path : Path) (file : IdlFile) : Text :=
  let messages : Text :=
    match file.content with
    | .protocol p => ", " ++ Text.ofNat p.messages.length ++ " message(s)"
    | _ => []
  "[notice] Compiled " ++ quoted path.text ++ " (" ++ Text.ofNat file.names.length ++
    " named type(s)" ++ messages ++ ").\n"

/-- An absent path or a lone minus sign stands for a standard stream. -/
def isStandard (path : Option Text) : Bool := path = none || path = some ("-" : Text)

/-- The path of a source that comes from standard input. -/
def standardPath (tree : FileTree) : Path :=
  (FileTree.pathTo tree.current).join (.ofText "stdin.avdl")

/-- Compiles one source to one document. Progress is printed unless the document itself is. -/
def runIdl (o : CommandLine.Options) (stdin : Text) (tree : FileTree) : Run :=
  let logs := !isStandard o.output
  let start := Run.printIf { tree := tree } logs "[information] Starting avdlc idl.\n"
  let input := o.input.getD []
  let (source, path) :=
    if isStandard o.input then (some stdin, standardPath tree)
    else (tree.read? (.ofText input), Path.ofText input)
  match source with
  | none =>
    (start.complain ("AVDL-E1006 InputReadFailed: unable to open " ++ quoted input ++ ".\n")).failed
  | some source =>
    let searched : Text :=
      o.importDirectories.flatMap fun d => Text.ofAscii "    import-dir: " ++ d ++ "\n"
    let r := start.printIf (logs && o.verbose)
      ("[debug] Read " ++ Text.ofNat source.length ++ " bytes from " ++ quoted path.text ++ ".\n" ++
        searched)
    let directories := o.importDirectories.map Path.ofText
    match (Compilation.compileSource tree directories source path).ending with
    | .aborted => r.abort
    | .failure warnings ds =>
      (((r.diagnose warnings).diagnose ds).complain
        ("AVDL-E1007 CompilationFailed: " ++ quoted path.text ++ " was not compiled.\n")).failed
    | .success warnings output =>
      let r := (r.diagnose warnings).printIf logs (summary path output.file)
      if logs then
        let target := o.output.getD []
        match writeTextFile tree (.ofText target) output.text with
        | (tree, some p) =>
          ({ r with tree := tree }.complain
            ("AVDL-E1008 OutputWriteFailed: " ++ p.message ++ "\n")).failed
        | (tree, none) =>
          { r with tree := tree }.print ("[notice] Output written to " ++ target ++ "\n")
      else r.print (output.text ++ "\n")

/-- Compiles one of the sources of an input and writes its schemas. -/
def runSource (o : CommandLine.Options) (directory : Path) (r : Run) (path : Path) : Run :=
  if r.aborted then r
  else
    let r := r.printIf o.verbose ("[debug] Compiling " ++ quoted path.text ++ ".\n")
    match r.tree.read? path with
    | none =>
      (r.complain
        ("AVDL-E1006 InputReadFailed: unable to open " ++ quoted path.text ++ ".\n")).failed
    | some source =>
      let directories := o.importDirectories.map Path.ofText
      match (Compilation.compileNamed r.tree directories source path).ending with
      | .aborted => r.abort
      | .failure warnings ds => ((r.diagnose warnings).diagnose ds).failed
      | .success warnings schemas =>
        let r := r.diagnose warnings
        match writeSchemata r.tree directory schemas with
        | (tree, some p) =>
          ({ r with tree := tree }.complain
            ("AVDL-E1008 OutputWriteFailed: " ++ p.message ++ "\n")).failed
        | (tree, none) =>
          let written : Text := schemas.flatMap fun s =>
            Text.ofAscii "    " ++ (targetIn directory s.name).text ++ "\n"
          ({ r with tree := tree }.print
            ("[notice] Wrote " ++ Text.ofNat schemas.length ++ " schema file(s) from " ++
              quoted path.text ++ ".\n")).printIf o.verbose written

/-- Writes one schema file for every named type of every source of the input. -/
def runIdlToSchemata (o : CommandLine.Options) (tree : FileTree) : Run :=
  let directory := Path.ofText (o.output.getD ".")
  let input := o.input.getD []
  let start := Run.print { tree := tree }
    ("[information] Starting avdlc idl2schemata.\n  input: " ++ input ++ "\n  output: " ++
      directory.text ++ "\n")
  match collectSources tree (.ofText input) with
  | none =>
    (start.complain
      ("AVDL-E1006 InputReadFailed: input " ++ quoted input ++ " does not exist.\n")).failed
  | some sources =>
    let r := sources.foldl (runSource o directory) start
    if r.aborted || r.exit = 0 then r
    else r.complain "AVDL-W1001 idl2schemata finished with errors.\n"

/-- Runs the tool with its arguments. -/
def run (arguments : List Text) (stdin : Text) (tree : FileTree) : Run :=
  match CommandLine.parse arguments with
  | .error e => { exit := 2, stderr := e.message, tree := tree }
  | .ok o =>
    if o.help then { stdout := helpText, tree := tree }
    else if o.version then { stdout := "avdlc " ++ version ++ "\n", tree := tree }
    else
      match o.command with
      | some .idlToSchemata => runIdlToSchemata o tree
      | _ => runIdl o stdin tree

end AvroIdl.Tool
