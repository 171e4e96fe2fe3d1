import AvroIdl.Tool

/-!
# What a run looks at

The paths on which a run depends: those that its arguments name, and for every source the places at
which its imports are looked for.
-/
namespace AvroIdl.Tool

/-- The options of a run that compiles something. -/
def working? (arguments : List Text) : Option CommandLine.Options :=
  match CommandLine.parse arguments with
  | .ok o => if o.help || o.version then none else some o
  | .error _ => none

/-- Whether the source of a run comes from standard input. -/
def readsStandardInput (o : CommandLine.Options) : Bool :=
  o.command = some .idl && isStandard o.input

/-- The locations that a source imports. -/
def locations (unit : SourceUnit) : List Text :=
  let declarations :=
    match unit.body with
    | .protocol d => d.body
    | .schemas _ _ ds => ds
  declarations.filterMap fun d =>
    match d with
    | .file i => (Literal.decodeString i.location).toOption
    | _ => none

/-- The paths at which the imports of a source at a path are looked for. -/
def importPaths (o : CommandLine.Options) (path : Path) (source : Text) : List Path :=
  match Compilation.treeOf source path.text with
  | .error _ => []
  | .ok unit =>
    (locations unit).flatMap fun l =>
      Import.candidates path (o.importDirectories.map Path.ofText) (.ofText l)

/-- The paths that are known before any file has been read. -/
def firstPaths (o : CommandLine.Options) (stdin : Text) (tree : FileTree) : List Path :=
  let named := (o.input.toList ++ o.output.toList).map Path.ofText
  if readsStandardInput o then named ++ importPaths o (standardPath tree) stdin else named

/-- The directory whose sources a run compiles, if its input is one. -/
def inputDirectory? (o : CommandLine.Options) (tree : FileTree) : Option Place :=
  match o.command, tree.locate (.ofText (o.input.getD [])) with
  | some .idlToSchemata, .ok (place, .directory) => some place
  | _, _ => none

/-- The sources of the input directory. -/
def inputSources (o : CommandLine.Options) (tree : FileTree) : List Path :=
  (collectSources tree (.ofText (o.input.getD []))).getD []

end AvroIdl.Tool
