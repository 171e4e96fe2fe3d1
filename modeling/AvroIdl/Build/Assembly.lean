import AvroIdl.Build.Declaration
import AvroIdl.Document.Read
import AvroIdl.Import
import AvroIdl.Json.Read

/-!
# Building a source unit

The declarations of a unit are taken in order. Types go to the registry and messages to the message
list; imports bring in those of other files. The building stops at the first error, and what has
been registered until then stays.
-/
namespace AvroIdl

/-- What a source was compiled to. -/
inductive IdlFile.Content where
  | protocol (p : Protocol)
  | schema (main : Schema)
  | named
  deriving BEq, Repr

structure IdlFile where
  content : IdlFile.Content
  /-- The full names of all types that the file declares or imports. -/
  names : List Text
  deriving BEq, Repr

namespace Build

structure State where
  registry : Registry
  session : Session := {}
  messages : List Message := []
  warnings : List Diagnostic := []

/-- What loading an imported source gives. -/
structure Loaded where
  state : State
  failure : Option Diagnostic := none

/-- Compiles the source at a path without resolving it. -/
abbrev Loader := Path → Session → Loaded

/-- How a file gets at what it imports. -/
structure Imports where
  tree : FileTree
  importer : Path
  loader : Option Loader

abbrev Assembly := ExceptT Diagnostic (StateM State)

/-- A computation that only reports. -/
def reported {α : Type} (r : Report α) : Assembly α := do
  let s ← get
  let (result, warnings) := r.run s.warnings
  set { s with warnings := warnings }
  match result with
  | .ok a => pure a
  | .error d => throw d

def registerNamed (file : Text) (schema : Schema) : Assembly Unit := do
  let s ← get
  match s.registry.register schema file with
  | .ok registry => set { s with registry := registry }
  | .error d => throw d

/-- Stops at an import. -/
def stopImport {α : Type} (i : Imports) (d : ImportDecl) (p : Import.Problem) : Assembly α :=
  throw (p.diagnostic i.importer d.span)

/-- Adds the content of an imported file. -/
def mergeImport (i : Imports) (d : ImportDecl) (path : Path) (types : List Registry.Entry)
    (messages : List Message) : Assembly Unit := do
  let s ← get
  let merged := Import.merge s.registry s.messages path types messages
  set { s with registry := merged.registry, messages := merged.messages }
  if !merged.collisions.isEmpty then stopImport i d (.redefinitions path merged.collisions)

/-- Takes in a schema or protocol document. -/
def importDocument (i : Imports) (d : ImportDecl) (path : Path) : Assembly Unit := do
  match i.tree.read? path with
  | none => stopImport i d (.unreadable path)
  | some contents =>
    match Json.parse contents with
    | .error .malformed => stopImport i d (.unparsable path)
    | .error (.overflow _) => stopImport i d (.overflow path)
    | .ok json =>
      let read := if d.kind = .protocol then Document.ofProtocol true else Document.ofSchema true
      match read json with
      | .error problems => stopImport i d (.invalid path problems)
      | .ok document =>
        mergeImport i d path (document.types.map fun s => ⟨s, path.text⟩) document.messages

/-- Takes in another source. Its warnings come with those of the importing file. -/
def importSource (i : Imports) (d : ImportDecl) (path : Path) : Assembly Unit := do
  match i.loader with
  | none => stopImport i d (.idlUnavailable path)
  | some load =>
    let s ← get
    let loaded := load path (s.session.enter path)
    set { s with session := loaded.state.session.leave
                 warnings := s.warnings ++ loaded.state.warnings }
    match loaded.failure with
    | some failure => throw failure
    | none => mergeImport i d path loaded.state.registry.entries loaded.state.messages

/-- Takes in the file at a location, unless the session has it already. -/
def importFile (i : Imports) (d : ImportDecl) (location : Text) : Assembly Unit := do
  let s ← get
  match Import.locate? i.tree i.importer s.session.searchDirectories location with
  | none => stopImport i d (.notFound d.kind location s.session.searchDirectories)
  | some found =>
    let path := i.tree.canonical found
    if s.session.isInProgress path then stopImport i d (.cycle (s.session.describeChain path))
    else if s.session.isVisited path then return
    else if Session.maxDepth ≤ s.session.depth then
      stopImport i d (.tooDeep (s.session.describeChain path))
    else
      set { s with session := s.session.markVisited path }
      if d.kind = .idl then importSource i d path else importDocument i d path

/-- Drops the messages after the first `count`, which only a protocol can have. -/
def dropMessages (c : Context) (count : Nat) (span : Span) : Assembly Unit := do
  let s ← get
  let warnings := (s.messages.drop count).map fun m =>
    (Warning.ignoredMessage m.name).diagnostic c.file span
  set { s with messages := s.messages.take count, warnings := s.warnings ++ warnings }

def importDeclared (c : Context) (imports : Option Imports) (inProtocol : Bool) (d : ImportDecl) :
    Assembly Unit := do
  let location ← reported (decoded c d.span (Literal.decodeString d.location))
  match imports with
  | none => reported (stop c (.importsUnavailable c.file) d.span)
  | some i =>
    let count := (← get).messages.length
    importFile i d location
    if !inProtocol then dropMessages c count d.span

def addMessage (c : Context) (d : MessageDecl) : Assembly Unit := do
  let message ← reported (messageOf c d)
  let s ← get
  if s.messages.any fun m => m.name == message.name then
    reported (stop c (.duplicateMessage message.name) d.name.span)
  else set { s with messages := s.messages ++ [message] }

def addDeclaration (c : Context) (imports : Option Imports) (inProtocol : Bool) :
    Declaration → Assembly Unit
  | .file d => importDeclared c imports inProtocol d
  | .record d => do
    let s ← reported (recordOf c d)
    registerNamed c.file s
  | .enum d => do
    let s ← reported (Report.ofExcept (enumOf c d))
    registerNamed c.file s
  | .fixed d => do
    let s ← reported (Report.ofExcept (fixedOf c d))
    registerNamed c.file s
  | .message d => addMessage c d

def addDeclarations (c : Context) (imports : Option Imports) (inProtocol : Bool) :
    List Declaration → Assembly Unit
  | [] => return
  | d :: ds => do
    addDeclaration c imports inProtocol d
    addDeclarations c imports inProtocol ds

def warnOrphans (c : Context) : List Span → Report Unit
  | [] => return
  | span :: spans => do
    warn c .orphanDoc span
    warnOrphans c spans

def addProtocol (file : Text) (imports : Option Imports) (d : ProtocolDecl) :
    Assembly IdlFile := do
  let c : Context := { file := file }
  let set ← reported
    (Report.ofExcept (AnnotationSet.collect file { space := true } d.annotations))
  let q ← reported (Report.ofExcept (declaredName c d.name set))
  addDeclarations { c with scope := .of q.space } imports true d.body
  let s ← get
  let names := s.registry.names
  return ⟨.protocol { name := q.name, space := q.space, doc := d.doc, properties := set.properties
                      types := names, messages := s.messages }, names⟩

/-- The scope of a list of types. -/
def scopeOf (c : Context) : Option Identifier → Report Scope
  | none => return {}
  | some i =>
    if Name.isValidNamespace i.text then return .of (some i.text)
    else stop c (.illegalNamespace i.text) i.span

def addSchemas (file : Text) (imports : Option Imports) (space : Option Identifier)
    (main : Option TypeNode) (ds : List Declaration) : Assembly IdlFile := do
  let scope ← reported (scopeOf { file := file } space)
  let c : Context := ⟨file, scope⟩
  addDeclarations c imports false ds
  match main with
  | none => return ⟨.named, (← get).registry.names⟩
  | some type =>
    let s ← reported (typeOf c type)
    return ⟨.schema s, (← get).registry.names⟩

/-- Builds a unit. -/
def addUnit (file : Text) (imports : Option Imports) (u : SourceUnit) : Assembly IdlFile := do
  reported (warnOrphans { file := file } u.orphans)
  match u.body with
  | .protocol d => addProtocol file imports d
  | .schemas space main ds => addSchemas file imports space main ds

end Build

end AvroIdl
