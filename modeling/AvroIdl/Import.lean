import AvroIdl.Document
import AvroIdl.FileTree
import AvroIdl.Registry
import AvroIdl.Session
import AvroIdl.Tree

/-!
# Imports

How an import is found, what can go wrong with it, and how the types and messages of an imported
file are added to those of the file that imports it.
-/
namespace AvroIdl.Import

inductive Problem where
  | notFound (kind : ImportKind) (location : Text) (searched : List Path)
  | cycle (chain : Text)
  | tooDeep (chain : Text)
  | unreadable (path : Path)
  | unparsable (path : Path)
  /-- The reader throws what nothing catches. -/
  | overflow (path : Path)
  /-- The document has problems. -/
  | invalid (path : Path) (problems : List Document.Problem)
  | idlUnavailable (path : Path)
  | redefinitions (path : Path) (collisions : List Diagnostic)
  deriving BEq, Repr

namespace Problem

def kind : Problem → Diagnostic.Kind
  | notFound _ _ _ | idlUnavailable _ => .importNotFound
  | cycle _ => .importCycle
  | tooDeep _ => .nestingTooDeep
  | unreadable _ => .importReadError
  | unparsable _ | invalid _ [] => .importParseError
  | overflow _ => .fault
  | invalid _ (p :: _) => p.kind
  | redefinitions _ _ => .duplicateDefinition

def message : Problem → Text
  | notFound kind location _ => "Unable to find " ++ kind.text ++ " import '" ++ location ++ "'."
  | cycle chain => "Import cycle: " ++ chain ++ "."
  | tooDeep chain =>
    "Import chain exceeds " ++ Text.ofNat Session.maxDepth ++ " files: " ++ chain ++ "."
  | unreadable path => "Unable to read import '" ++ path.text ++ "'."
  | unparsable path => "Unable to parse '" ++ path.text ++ "': <json parse error>"
  | overflow _ => "<json range error>"
  | invalid path problems =>
    "Unable to import '" ++ path.text ++ "': " ++
      (match problems with
      | [] => ("invalid document" : Text)
      | p :: _ => p.message)
  | idlUnavailable path => "IDL imports are not available here ('" ++ path.text ++ "')."
  | redefinitions path collisions =>
    "Import '" ++ path.text ++ "' redefines " ++ Text.ofNat collisions.length ++
      (if collisions.length = 1 then " name." else " names.")

def help : Problem → Option Text
  | notFound _ _ searched =>
    some (Text.join ", " ("searched next to the importing file" :: searched.map Path.text))
  | _ => none

def related : Problem → List Diagnostic
  | invalid path problems => problems.map fun p => p.diagnostic path.text
  | redefinitions _ collisions => collisions
  | _ => []

/-- The problem as a diagnostic of the file that imports. -/
def diagnostic (p : Problem) (importer : Path) (span : Span) : Diagnostic :=
  { kind := p.kind, message := p.message, span := some span, file := importer.text
    help := p.help, related := p.related }

end Problem

/-- The paths at which an import is looked for: beside the importing file, then in the search
directories. A rooted location is looked for nowhere else. -/
def candidates (importer : Path) (searchDirectories : List Path) (location : Path) : List Path :=
  if location.isRooted then [location]
  else importer.parent.join location :: searchDirectories.map fun d => d.join location

/-- The first of the candidates that is a file. -/
def locate? (tree : FileTree) (importer : Path) (searchDirectories : List Path) (location : Text) :
    Option Path :=
  (candidates importer searchDirectories (.ofText location)).find? tree.isFile

/-- Adds an imported type, or says why it collides. -/
def addType (r : Registry) (e : Registry.Entry) : Registry × Option Diagnostic :=
  match r.entry? e.schema.full with
  | some existing =>
    (r, some
      { kind := .duplicateDefinition, file := e.origin
        message :=
          "Type '" ++ e.schema.full ++ "' is defined in both '" ++ existing.origin ++ "' and '" ++
            e.origin ++ "'." })
  | none =>
    match r.register e.schema e.origin with
    | .ok r => (r, none)
    | .error d => (r, some d)

/-- Adds imported types from the left, and collects the collisions. -/
def addTypes (r : Registry) : List Registry.Entry → Registry × List Diagnostic
  | [] => (r, [])
  | e :: es =>
    let (r, collision) := addType r e
    let (r, collisions) := addTypes r es
    (r, collision.toList ++ collisions)

/-- Adds imported messages whose names are new, and collects the collisions. -/
def addMessages (file : Text) (path : Path) (messages : List Message) :
    List Message → List Message × List Diagnostic
  | [] => (messages, [])
  | m :: ms =>
    if messages.any fun known => known.name == m.name then
      let (messages, collisions) := addMessages file path messages ms
      (messages,
        { kind := .duplicateDefinition, file := path.text
          message :=
            "Message '" ++ m.name ++ "' is defined in both '" ++ file ++ "' and '" ++ path.text ++
              "'." } :: collisions)
    else addMessages file path (messages ++ [m]) ms

/-- The registry and messages with an import added to them. -/
structure Merged where
  registry : Registry
  messages : List Message
  collisions : List Diagnostic
  deriving BEq, Repr

/-- Adds the types and messages of an imported file as far as they do not collide. -/
def merge (r : Registry) (messages : List Message) (path : Path) (types : List Registry.Entry)
    (imported : List Message) : Merged :=
  let (registry, typeCollisions) := addTypes r types
  let (messages, messageCollisions) := addMessages r.file path messages imported
  ⟨registry, messages, typeCollisions ++ messageCollisions⟩

end AvroIdl.Import
