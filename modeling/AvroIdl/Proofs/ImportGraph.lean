import AvroIdl.Compilation
import Mathlib.Logic.Relation

/-!
# The import graph

Which files a source imports, and what each of them declares. A file is a node of the graph by its
canonical path, and the import declarations of sources are the edges; documents import nothing. All
of it is read off the files, without compiling them.
-/
namespace AvroIdl

namespace SourceUnit

def declarations (u : SourceUnit) : List Declaration :=
  match u.body with
  | .protocol d => d.body
  | .schemas _ _ ds => ds

/-- Only protocols have messages. -/
def isProtocol (u : SourceUnit) : Bool :=
  match u.body with
  | .protocol _ => true
  | .schemas _ _ _ => false

/-- The context in which the declarations of a unit stand, if its name or namespace is legal. -/
def context? (file : Text) (u : SourceUnit) : Option Build.Context :=
  match u.body with
  | .protocol d =>
    let name : Except Diagnostic QualifiedName := do
      let set ← Build.AnnotationSet.collect file { space := true } d.annotations
      Build.declaredName { file := file, scope := .of none } d.name set
    name.toOption.map fun q => { file := file, scope := .of q.space }
  | .schemas none _ _ => some { file := file, scope := .of none }
  | .schemas (some i) _ _ =>
    if Name.isValidNamespace i.text then some { file := file, scope := .of (some i.text) }
    else none

end SourceUnit

namespace Declaration

/-- The full name of the type that is declared in a context. -/
def typeName? (c : Build.Context) : Declaration → Option Text
  | .record d => (Build.headOf c d.name d.doc d.annotations).toOption.map fun h => h.2.full
  | .enum d => (Build.headOf c d.name d.doc d.annotations).toOption.map fun h => h.2.full
  | .fixed d => (Build.headOf c d.name d.doc d.annotations).toOption.map fun h => h.2.full
  | _ => none

@[simp]
theorem typeName?_file (c : Build.Context) (d : ImportDecl) : typeName? c (.file d) = none := rfl

def messageName? : Declaration → Option Text
  | .message d => some d.name.text
  | _ => none

def import? : Declaration → Option ImportDecl
  | .file d => some d
  | _ => none

end Declaration

namespace Import

/-- A file and what it is imported as. -/
structure Target where
  kind : ImportKind
  path : Path
  deriving DecidableEq, Repr

/-- The file to which an import declaration leads. -/
def target? (tree : FileTree) (searchDirectories : List Path) (importer : Path) (d : ImportDecl) :
    Option Target :=
  match Literal.decodeString d.location with
  | .ok location =>
    (locate? tree importer searchDirectories location).map fun found => ⟨d.kind, tree.canonical found⟩
  | .error _ => none

/-- The content of an imported document. -/
def document? (tree : FileTree) (t : Target) : Option Document :=
  (tree.read? t.path).bind fun contents =>
    (Json.parse? contents).bind fun json =>
      (if t.kind = .protocol then Document.ofProtocol true json
        else Document.ofSchema true json).toOption

/-- What can be wrong with an imported document. -/
inductive Rejects (tree : FileTree) (path : Path) : Problem → Prop
  | unreadable (absent : tree.read? path = none) : Rejects tree path (.unreadable path)
  | unparsable {contents : Text} (read : tree.read? path = some contents)
    (malformed : Json.parse contents = .error .malformed) : Rejects tree path (.unparsable path)
  | overflow {contents rest : Text} (read : tree.read? path = some contents)
    (large : Json.parse contents = .error (.overflow rest)) : Rejects tree path (.overflow path)
  | invalid (problems : List Document.Problem) : Rejects tree path (.invalid path problems)

end Import

/-- A document is merged into what has been built, or the import stops at what is wrong with it. -/
theorem Build.importDocument_eq (i : Imports) (d : ImportDecl) (path : Path) :
    (∃ document, Import.document? i.tree ⟨d.kind, path⟩ = some document ∧
      importDocument i d path =
        mergeImport i d path (document.types.map fun s => ⟨s, path.text⟩) document.messages) ∨
      ∃ p, Import.Rejects i.tree path p ∧ importDocument i d path = stopImport i d p := by
  unfold importDocument
  split
  · next hread => exact .inr ⟨_, .unreadable hread, rfl⟩
  · next contents hread =>
    split
    · next hparse => exact .inr ⟨_, .unparsable hread hparse, rfl⟩
    · next rest hparse => exact .inr ⟨_, .overflow hread hparse, rfl⟩
    · next json hparse =>
      dsimp only
      split
      · next problems _ => exact .inr ⟨_, .invalid problems, rfl⟩
      · next document hdocument =>
        have hread' : (if d.kind = .protocol then Document.ofProtocol true json
            else Document.ofSchema true json) = .ok document := by
          rw [← hdocument]
          split <;> rfl
        refine .inl ⟨document, ?_, rfl⟩
        simp [Import.document?, Json.parse?, hread, hparse, hread', Except.toOption]

/-- The state in which the build of a file begins. -/
def Build.State.opening (path : Path) (session : Session) : Build.State :=
  { registry := { file := path.text }, session := session }

/-- A source with its path, the files that can be imported, and the directories in which they are
searched. -/
structure Project where
  tree : FileTree
  searchDirectories : List Path := []
  source : Text
  path : Path
  deriving DecidableEq, Repr

namespace Project

open Import (Target)

/-- The canonical path of the source. -/
def root (x : Project) : Path := (x.tree.canonical x.path).plain

/-- The session in which the source is compiled: it is open from the start. -/
def session (x : Project) : Session :=
  (Session.enter { searchDirectories := x.searchDirectories }
    (x.tree.canonical x.path)).markVisited (x.tree.canonical x.path)

/-- The path by which a file looks for its imports: the source keeps the path that it was given. -/
def importer (x : Project) (p : Path) : Path := if p = x.root then x.path else p

/-- The text at a path; at its own path the source stands for itself. -/
def source? (x : Project) (p : Path) : Option Text :=
  if p = x.root then some x.source else x.tree.read? p

def unit? (x : Project) (p : Path) : Option SourceUnit :=
  (x.source? p).bind fun source => (Compilation.treeOf source (x.importer p).text).toOption

def target? (x : Project) (p : Path) (d : ImportDecl) : Option Target :=
  Import.target? x.tree x.searchDirectories (x.importer p) d

/-- The files to which declarations in the file at a path lead. -/
def targets (x : Project) (p : Path) (ds : List Declaration) : List Target :=
  ds.filterMap fun d => d.import?.bind (x.target? p)

/-- The files that the file at a path imports. -/
def imports (x : Project) (p : Path) : List Target :=
  match x.unit? p with
  | some u => x.targets p u.declarations
  | none => []

/-- A file imports another one. -/
def Imports (x : Project) (p q : Path) : Prop := ∃ kind, ⟨kind, q⟩ ∈ x.imports p

/-- A file imports another one as a source. -/
def ImportsSource (x : Project) (p q : Path) : Prop := ⟨.idl, q⟩ ∈ x.imports p

/-- The source, and what is reached from it through import declarations. -/
inductive Reaches (x : Project) : Target → Prop
  | root : Reaches x ⟨.idl, x.root⟩
  | step {p : Path} {t : Target} (source : Reaches x ⟨.idl, p⟩) (declared : t ∈ x.imports p) :
    Reaches x t

/-- The full names of the types that a file declares. -/
def typeNames (x : Project) (t : Target) : List Text :=
  if t.kind = .idl then
    match x.unit? t.path with
    | some u =>
      match u.context? (x.importer t.path).text with
      | some c => u.declarations.filterMap (Declaration.typeName? c)
      | none => []
    | none => []
  else
    match Import.document? x.tree t with
    | some document => document.types.map Schema.full
    | none => []

/-- The names of the messages that a file has by itself. -/
def messageNames (x : Project) (t : Target) : List Text :=
  if t.kind = .idl then
    match x.unit? t.path with
    | some u => if u.isProtocol then u.declarations.filterMap Declaration.messageName? else []
    | none => []
  else
    match Import.document? x.tree t with
    | some document => document.messages.map (·.name)
    | none => []

theorem targets_cons_of_leads {x : Project} {p : Path} {d : ImportDecl} {t : Target}
    (h : x.target? p d = some t) (ds : List Declaration) :
    x.targets p (.file d :: ds) = t :: x.targets p ds := by
  simp [targets, Declaration.import?, h]

theorem targets_cons_subset_iff {x : Project} {p : Path} {d : ImportDecl} {t : Target}
    (h : x.target? p d = some t) {ds : List Declaration} {ts : List Target} :
    x.targets p (.file d :: ds) ⊆ ts ↔ t ∈ ts ∧ x.targets p ds ⊆ ts := by
  rw [targets_cons_of_leads h, List.cons_subset]

theorem targets_cons_of_typeName? {x : Project} {p : Path} {c : Build.Context} {d : Declaration}
    {name : Text} (h : d.typeName? c = some name) (ds : List Declaration) :
    x.targets p (d :: ds) = x.targets p ds := by
  cases d with
  | file d => cases h
  | _ => rfl

theorem imports_of_unit {x : Project} {p : Path} {u : SourceUnit} (h : x.unit? p = some u) :
    x.imports p = x.targets p u.declarations := by
  simp [imports, h]

theorem targets_subset_imports {x : Project} {p : Path} {u : SourceUnit}
    (h : x.unit? p = some u) : x.targets p u.declarations ⊆ x.imports p := by
  rw [imports_of_unit h]
  exact fun _ ht => ht

/-- What has the source and what its sources import has all that is reached. -/
theorem Reaches.mem_of_closed {x : Project} {closed : List Target}
    (root : ⟨.idl, x.root⟩ ∈ closed)
    (step : ∀ t ∈ closed, t.kind = .idl → ∀ t' ∈ x.imports t.path, t' ∈ closed) {t : Target}
    (h : x.Reaches t) : t ∈ closed := by
  induction h with
  | root => exact root
  | step _ declared ih => exact step _ ih rfl _ declared

section Names

variable {x : Project} {t : Target} {u : SourceUnit} {document : Document}

theorem typeNames_of_unit {c : Build.Context} (kind : t.kind = .idl)
    (unit : x.unit? t.path = some u) (context : u.context? (x.importer t.path).text = some c) :
    x.typeNames t = u.declarations.filterMap (Declaration.typeName? c) := by
  simp [typeNames, kind, unit, context]

theorem typeNames_of_document (kind : t.kind ≠ .idl)
    (content : Import.document? x.tree t = some document) :
    x.typeNames t = document.types.map Schema.full := by
  simp [typeNames, kind, content]

theorem messageNames_of_unit (kind : t.kind = .idl) (unit : x.unit? t.path = some u) :
    x.messageNames t =
      if u.isProtocol then u.declarations.filterMap Declaration.messageName? else [] := by
  simp [messageNames, kind, unit]

theorem messageNames_of_document (kind : t.kind ≠ .idl)
    (content : Import.document? x.tree t = some document) :
    x.messageNames t = document.messages.map (·.name) := by
  simp [messageNames, kind, content]

end Names

end Project

end AvroIdl
