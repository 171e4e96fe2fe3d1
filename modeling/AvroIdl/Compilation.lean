import AvroIdl.Build.Assembly
import AvroIdl.Document.Write
import AvroIdl.Registry.Resolve
import AvroIdl.Token.Stream
import AvroIdl.Tree.Parse

/-!
# Compilation

A source is read, built together with all that it imports, resolved and checked, and then written
as one document or as one schema for every named type. A compilation gives its warnings and either
a result or the errors that prevent it, unless a library throws: then it gives nothing at all.
-/
namespace AvroIdl

structure Compilation (α : Type) where
  warnings : List Diagnostic := []
  result : Except (List Diagnostic) α

namespace Compilation

/-- How a compilation ends for its caller. -/
inductive Ending (α : Type) where
  | success (warnings : List Diagnostic) (a : α)
  | failure (warnings errors : List Diagnostic)
  /-- What a library has thrown leaves the compiler; nothing is returned. -/
  | aborted
  deriving BEq, Repr

def ending {α : Type} (c : Compilation α) : Ending α :=
  match c.result with
  | .ok a => .success c.warnings a
  | .error ds => if ds.any Diagnostic.isFault then .aborted else .failure c.warnings ds

/-- Why no unit was built. -/
inductive Failure where
  /-- The source could not be read as a tree. -/
  | unreadable (problems : List Diagnostic)
  | declaration (problem : Diagnostic)

def Failure.diagnostics : Failure → List Diagnostic
  | unreadable ds => ds
  | declaration d => [d]

/-- Syntax errors are shown with a readable list of what was expected. -/
def readable (d : Diagnostic) : Diagnostic :=
  if d.kind = .syntaxError then { d with message := Mismatch.enrich d.message } else d

/-- The tree of a source. -/
def treeOf (source file : Text) : Except (List Diagnostic) SourceUnit :=
  let stream := TokenStream.ofSource source file
  if !stream.diagnostics.isEmpty then .error stream.diagnostics
  else
    let (unit, failure) := SourceUnit.ofTokens stream.tokens stream.docs
    match SourceUnit.diagnostics file failure with
    | [] => .ok unit
    | ds => .error (ds.map readable)

/-- Builds a source on top of a state. -/
def buildSource (imports : Build.Imports) (source : Text) (s : Build.State) :
    Except Failure IdlFile × Build.State :=
  let file := imports.importer.text
  match treeOf source file with
  | .error ds => (.error (.unreadable ds), s)
  | .ok unit =>
    match (Build.addUnit file (some imports) unit).run s with
    | (.ok idl, s) => (.ok idl, s)
    | (.error d, s) => (.error (.declaration d), s)

/-- Loads the source at a path; the path is the last one of the session's chain. -/
def loadSource (tree : FileTree) (inner : Option Build.Loader) : Build.Loader := fun path session =>
  let s : Build.State := { registry := { file := path.text }, session := session }
  let fault (kind : Diagnostic.Kind) (message : Text) : Diagnostic :=
    { kind := kind, message := message, file := path.text }
  match tree.read? path with
  | none =>
    ⟨s, some (fault .importReadError ("Unable to read imported file '" ++ path.text ++ "'."))⟩
  | some source =>
    match buildSource ⟨tree, path, inner⟩ source s with
    | (.error (.unreadable ds), s) =>
      let d := fault .importParseError ("Syntax error in imported file '" ++ path.text ++ "'.")
      ⟨s, some { d with help := some (session.describeChain path), related := ds }⟩
    | (.error (.declaration d), s) => ⟨s, some d⟩
    | (.ok ⟨.protocol p, _⟩, s) => ⟨{ s with messages := p.messages }, none⟩
    | (.ok _, s) => ⟨{ s with messages := [] }, none⟩

/-- Loads sources that import others, the given number of them one inside the other. -/
def loader (tree : FileTree) : Nat → Option Build.Loader
  | 0 => none
  | depth + 1 => some (loadSource tree (loader tree depth))

/-- A unit whose references are bound and whose defaults fit. -/
structure Root where
  registry : Registry
  file : IdlFile
  deriving BEq, Repr

namespace Root

def messages (file : IdlFile) : List Message :=
  match file.content with
  | .protocol p => p.messages
  | _ => []

def main? (file : IdlFile) : Option Schema :=
  match file.content with
  | .schema s => some s
  | _ => none

/-- The file with messages and a main schema that have been resolved. -/
def resolved (file : IdlFile) (messages : List Message) (main : Option Schema) (names : List Text) :
    IdlFile :=
  match file.content, main with
  | .protocol p, _ => ⟨.protocol { p with messages := messages, types := names }, names⟩
  | .schema _, some s => ⟨.schema s, names⟩
  | content, _ => ⟨content, names⟩

end Root

/-- Binds the references of a unit and checks its defaults. -/
def finish (registry : Registry) (file : IdlFile) : Except (List Diagnostic) Root :=
  let r := registry.resolveAll (Root.messages file) (Root.main? file)
  match r.failure with
  | some d => .error [d]
  | none =>
    match r.registry.validateDefaults r.messages with
    | [] => .ok ⟨r.registry, Root.resolved file r.messages r.main r.registry.names⟩
    | ds => .error ds

/-- Compiles a source at a path, with directories in which imports are searched. -/
def root (tree : FileTree) (searchDirectories : List Path) (source : Text) (path : Path) :
    Compilation Root :=
  let canonical := tree.canonical path
  let session := (Session.enter { searchDirectories := searchDirectories } canonical).markVisited
    canonical
  let imports : Build.Imports := ⟨tree, path, loader tree Session.maxDepth⟩
  match buildSource imports source { registry := { file := path.text }, session := session } with
  | (.error f, s) => ⟨s.warnings, .error f.diagnostics⟩
  | (.ok file, s) => ⟨s.warnings, finish s.registry file⟩

/-- The document of a unit. -/
def Root.document (r : Root) : Json :=
  let writing : Document.Writer Json :=
    match r.file.content with
    | .protocol p => Document.writeProtocol r.registry p
    | .schema s => Document.writeSchema r.registry s none
    | .named => Document.writeNamed r.registry r.file.names
  (writing.run []).1

/-- A document as text, and what it was written from. -/
structure Output where
  text : Text
  file : IdlFile
  deriving BEq, Repr

def map {α β : Type} (f : α → β) (c : Compilation α) : Compilation β :=
  ⟨c.warnings, c.result.map f⟩

/-- Compiles a source to one document. -/
def compileSource (tree : FileTree) (searchDirectories : List Path) (source : Text) (path : Path) :
    Compilation Output :=
  (root tree searchDirectories source path).map fun r => ⟨r.document.render, r.file⟩

/-- Compiles the source in a file. -/
def compileFile (tree : FileTree) (searchDirectories : List Path) (path : Path) :
    Compilation Output :=
  match tree.read? path with
  | some source => compileSource tree searchDirectories source path
  | none =>
    ⟨[], .error
      [{ kind := .importReadError, message := "Unable to read '" ++ path.text ++ "'."
         file := path.text }]⟩

/-- The schema of one named type with all that it uses. -/
structure NamedSchema where
  name : Text
  full : Text
  json : Text
  deriving DecidableEq, Repr

/-- The schemas of all named types in the order of registration. -/
def Root.namedSchemas (r : Root) : List NamedSchema :=
  r.registry.entries.map fun e =>
    let written := ((Document.writeStandalone r.registry e.schema.full).run []).1
    ⟨e.schema.core.ownName.1, e.schema.full, written.render⟩

/-- Compiles a source to one schema for every named type. -/
def compileNamed (tree : FileTree) (searchDirectories : List Path) (source : Text) (path : Path) :
    Compilation (List NamedSchema) :=
  (root tree searchDirectories source path).map Root.namedSchemas

end Compilation

end AvroIdl
