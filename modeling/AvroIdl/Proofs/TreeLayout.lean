import AvroIdl.Proofs.DeclarationRules
import AvroIdl.Proofs.Reporting
import Mathlib.Data.List.Forall2
import Mathlib.Data.List.Induction

/-!
# The layout of trees

A tree may be laid out with less structure than the types of its nodes have: one record serves for
every kind of type and keeps the parts of a type in a list, and the declarations stand in one list
for each kind, beside a list of the kinds and indices in the order of the source. A build from this
layout may get to where it cannot go on: to a type that is nested too deeply, to a keyword that is
no type, to a type that stands only for a missing result, to the first of no parts, or past the end
of a list. On the layout of a well-formed tree it gets to none of these places, and does what the
build from the tree itself does.
-/
namespace AvroIdl

section Follows

variable {m : Type → Type} [Monad m] {α β : Type}

/-- The computation never gets to where it cannot go on, and does what the other one does. -/
def Follows (x : OptionT m α) (y : m α) : Prop := x.run = some <$> y

variable [LawfulMonad m]

theorem follows_pure (a : α) : Follows (pure a : OptionT m α) (pure a) := by
  simp [Follows]

theorem follows_lift (y : m α) : Follows (OptionT.lift y) y := by
  simp [Follows]

theorem Follows.bind {x : OptionT m α} {y : m α} {f : α → OptionT m β} {g : α → m β}
    (hx : Follows x y) (hf : ∀ a, Follows (f a) (g a)) : Follows (x >>= f) (y >>= g) := by
  have hsteps : ∀ a, (f a).run = some <$> g a := hf
  rw [Follows] at hx ⊢
  simp [OptionT.run_bind, hx, hsteps]

end Follows

/-! ### Types -/

/-- The kinds of types; what a message without a result returns is one of them. -/
inductive TypeLayout.Shape where
  | primitive
  | decimal
  | void
  | reference
  | array
  | map
  | union
  deriving DecidableEq

/-- A record for types of all kinds: the keyword of a primitive type, the name of a reference, the
numbers of a decimal type, and the parts of an array, a map or a union. -/
structure TypeLayout where
  shape : TypeLayout.Shape
  keyword : Keyword := .null
  name : Identifier := {}
  precision : Text := []
  scale : Option Text := none
  parts : List TypeLayout := []
  mark : TypeMark

namespace TypeNode

mutual

def layout : TypeNode → TypeLayout
  | primitive k m => { shape := .primitive, keyword := k, mark := m }
  | decimal precision scale m =>
    { shape := .decimal, keyword := .decimal, precision := precision, scale := scale, mark := m }
  | reference name m => { shape := .reference, name := name, mark := m }
  | array items m => { shape := .array, parts := [layout items], mark := m }
  | map values m => { shape := .map, parts := [layout values], mark := m }
  | union branches m => { shape := .union, parts := layouts branches, mark := m }

def layouts : List TypeNode → List TypeLayout
  | [] => []
  | t :: ts => layout t :: layouts ts

end

theorem mark_layout (t : TypeNode) : t.layout.mark = t.mark := by
  cases t <;> rw [layout] <;> rfl

end TypeNode

def ResultType.layout : ResultType → TypeLayout
  | .void span => { shape := .void, mark := { span := span } }
  | .value t => t.layout

namespace TypeLayout

open Build

mutual

/-- The schema of a type inside `depth` others. -/
def schema (c : Context) (depth : Nat) : TypeLayout → OptionT Report Schema
  | ⟨shape, keyword, name, precision, scale, parts, m⟩ => do
    if Build.maxNesting < depth then failure
    else
      match shape with
      | .primitive =>
        match keywordSchema? keyword with
        | some s => OptionT.lift (finished c m s)
        | none => failure
      | .decimal =>
        let s ← OptionT.lift (decimalSchema c precision scale m.span)
        OptionT.lift (finished c m s)
      | .void => failure
      | .reference => OptionT.lift (finished c m (referenceTo c name))
      | .array =>
        let s ← firstSchema c (depth + 1) parts
        OptionT.lift (finished c m (.compound .array [s] {}))
      | .map =>
        let s ← firstSchema c (depth + 1) parts
        OptionT.lift (finished c m (.compound .map [s] {}))
      | .union =>
        let schemas ← branchSchemas c (depth + 1) [] parts
        OptionT.lift (warnAnnotations c m.annotations)
        return .compound (.union false) schemas { span := some m.span }

/-- The schema of the first part. -/
def firstSchema (c : Context) (depth : Nat) : List TypeLayout → OptionT Report Schema
  | [] => failure
  | part :: _ => schema c depth part

/-- The schemas of the branches of a union, with the keys of those before them. -/
def branchSchemas (c : Context) (depth : Nat) (seen : List Text) :
    List TypeLayout → OptionT Report (List Schema)
  | [] => return []
  | part :: parts => do
    let s ← schema c depth part
    let key ← OptionT.lift (checkBranch c seen s part.mark.span)
    return s :: (← branchSchemas c depth (key :: seen) parts)

end

/-- What a message with this result returns. -/
def response (c : Context) (message : Text) (isOneWay : Bool) (result : TypeLayout) :
    OptionT Report Schema :=
  match result.shape with
  | .void => return .plain .null
  | _ =>
    if isOneWay then OptionT.lift (stop c (.oneWayResult message) result.mark.span)
    else result.schema c 0

/-- Within the limit a build goes on as it does without one. -/
theorem follows_within {α : Type} {c : Context} {depth : Nat} {span : Span}
    {x : OptionT Report α} {y : Report α} (hdepth : depth ≤ Build.maxNesting) (h : Follows x y) :
    Follows (if Build.maxNesting < depth then failure else x)
      (if Build.maxNesting < depth then stop c .tooDeep span else y) := by
  rwa [if_neg (Nat.not_lt.mpr hdepth), if_neg (Nat.not_lt.mpr hdepth)]

mutual

/-- The types around a type and the levels that it may have are no more than the limit. -/
theorem follows_schema (c : Context) {levels depth : Nat}
    (hdepth : depth + levels ≤ Build.maxNesting) :
    (t : TypeNode) → t.Within levels → Follows (t.layout.schema c depth) (schemaOf c depth t)
  | .primitive k m, ht => by
    rw [TypeNode.Within] at ht
    obtain ⟨s, hs⟩ := isSome_keywordSchema? ht.2.1 ht.2.2
    rw [TypeNode.layout, schema, schemaOf]
    apply follows_within (Nat.le_of_add_right_le hdepth)
    simp only [hs]
    exact follows_lift _
  | .decimal precision scale m, _ => by
    rw [TypeNode.layout, schema, schemaOf]
    apply follows_within (Nat.le_of_add_right_le hdepth)
    exact (follows_lift _).bind fun s => follows_lift _
  | .reference name m, _ => by
    rw [TypeNode.layout, schema, schemaOf]
    apply follows_within (Nat.le_of_add_right_le hdepth)
    exact follows_lift _
  | .array items m, ht => by
    cases levels with
    | zero => cases ht
    | succ levels =>
      have hitems := follows_schema c (by omega : depth + 1 + levels ≤ _) items ht.2.2
      rw [TypeNode.layout, schema, schemaOf]
      apply follows_within (Nat.le_of_add_right_le hdepth)
      exact hitems.bind fun s => follows_lift _
  | .map values m, ht => by
    cases levels with
    | zero => cases ht
    | succ levels =>
      have hvalues := follows_schema c (by omega : depth + 1 + levels ≤ _) values ht.2.2
      rw [TypeNode.layout, schema, schemaOf]
      apply follows_within (Nat.le_of_add_right_le hdepth)
      exact hvalues.bind fun s => follows_lift _
  | .union branches m, ht => by
    cases levels with
    | zero => cases ht
    | succ levels =>
      have hbranches := follows_branchSchemas c (by omega : depth + 1 + levels ≤ _) [] branches
        ht.2.2.2
      rw [TypeNode.layout, schema, schemaOf]
      apply follows_within (Nat.le_of_add_right_le hdepth)
      exact hbranches.bind fun schemas => (follows_lift _).bind fun _ => follows_pure _

theorem follows_branchSchemas (c : Context) {levels depth : Nat}
    (hdepth : depth + levels ≤ Build.maxNesting) (seen : List Text) :
    (ts : List TypeNode) → (∀ t ∈ ts, t.Within levels) →
      Follows (branchSchemas c depth seen (TypeNode.layouts ts)) (branchesOf c depth seen ts)
  | [], _ => by
    rw [TypeNode.layouts, branchSchemas, branchesOf]
    exact follows_pure _
  | t :: ts, hts => by
    obtain ⟨ht, hrest⟩ := List.forall_mem_cons.mp hts
    rw [TypeNode.layouts, branchSchemas, branchesOf, TypeNode.mark_layout]
    apply (follows_schema c hdepth t ht).bind
    intro s
    apply (follows_lift _).bind
    intro key
    exact (follows_branchSchemas c hdepth (key :: seen) ts hrest).bind fun _ => follows_pure _

end

theorem follows_typeOf (c : Context) {t : TypeNode} (h : t.WellFormed) :
    Follows (t.layout.schema c 0) (typeOf c t) := by
  have hlimit : 0 + AvroIdl.maxNesting ≤ Build.maxNesting := Nat.le_refl _
  exact follows_schema c hlimit t h

/-- A result that stands for none is never taken for a type. -/
theorem follows_responseOf (c : Context) (message : Text) (isOneWay : Bool) {result : ResultType}
    (h : result.WellFormed) :
    Follows (result.layout.response c message isOneWay) (responseOf c message isOneWay result) := by
  cases result with
  | void span => exact follows_pure _
  | value t =>
    have hshape : t.layout.shape ≠ .void := by
      cases t <;> rw [TypeNode.layout] <;> simp
    have hbuild : Follows
        (if isOneWay then OptionT.lift (stop c (.oneWayResult message) t.mark.span)
          else t.layout.schema c 0)
        (if isOneWay then stop c (.oneWayResult message) t.mark.span else typeOf c t) := by
      cases isOneWay with
      | true => exact follows_lift _
      | false => exact follows_typeOf c h.2
    rw [ResultType.layout, response, responseOf, TypeNode.mark_layout]
    split
    · next hvoid => exact absurd hvoid hshape
    · exact hbuild

end TypeLayout

/-! ### Declarations -/

/-- The lists of declarations, one for each kind. -/
inductive DeclarationLayout.Table where
  | imports
  | records
  | enums
  | fixeds
  | messages
  deriving DecidableEq

/-- The declarations by their kinds, and where each of them stands, in the order of the source. -/
structure DeclarationLayout where
  imports : List ImportDecl := []
  records : List RecordDecl := []
  enums : List EnumDecl := []
  fixeds : List FixedDecl := []
  messages : List MessageDecl := []
  order : List (DeclarationLayout.Table × Nat) := []

namespace DeclarationLayout

open Build

/-- A declaration goes to the end of its list, and its place there to the end of the order. -/
def add (l : DeclarationLayout) : Declaration → DeclarationLayout
  | .file d =>
    { l with imports := l.imports ++ [d], order := l.order ++ [(.imports, l.imports.length)] }
  | .record d =>
    { l with records := l.records ++ [d], order := l.order ++ [(.records, l.records.length)] }
  | .enum d =>
    { l with enums := l.enums ++ [d], order := l.order ++ [(.enums, l.enums.length)] }
  | .fixed d =>
    { l with fixeds := l.fixeds ++ [d], order := l.order ++ [(.fixeds, l.fixeds.length)] }
  | .message d =>
    { l with messages := l.messages ++ [d], order := l.order ++ [(.messages, l.messages.length)] }

def ofList (ds : List Declaration) : DeclarationLayout := ds.foldl add {}

/-- What stands at a place, if the place is in its list. -/
def item? (l : DeclarationLayout) : Table × Nat → Option Declaration
  | (.imports, i) => l.imports[i]?.map .file
  | (.records, i) => l.records[i]?.map .record
  | (.enums, i) => l.enums[i]?.map .enum
  | (.fixeds, i) => l.fixeds[i]?.map .fixed
  | (.messages, i) => l.messages[i]?.map .message

/-- Builds what stands at the places. -/
def build (l : DeclarationLayout) (c : Context) (imports : Option Imports) (inProtocol : Bool) :
    List (Table × Nat) → OptionT Assembly Unit
  | [] => return
  | place :: places =>
    match l.item? place with
    | some d => do
      OptionT.lift (addDeclaration c imports inProtocol d)
      build l c imports inProtocol places
    | none => failure

/-- The order gives these declarations. -/
def Holds (l : DeclarationLayout) (ds : List Declaration) : Prop :=
  List.Forall₂ (fun place d => l.item? place = some d) l.order ds

theorem item?_add {l : DeclarationLayout} {place : Table × Nat} {d : Declaration}
    (h : l.item? place = some d) (d' : Declaration) : (l.add d').item? place = some d := by
  have hgrown {α : Type} {xs : List α} {i : Nat} {f : α → Declaration}
      (h : xs[i]?.map f = some d) (ys : List α) : (xs ++ ys)[i]?.map f = some d := by
    obtain ⟨x, hx, rfl⟩ := Option.map_eq_some_iff.mp h
    rw [List.getElem?_append_left (List.getElem?_eq_some_iff.mp hx).1, hx]
    rfl
  obtain ⟨table, i⟩ := place
  cases table <;> cases d' <;> first | exact h | exact hgrown h _

theorem Holds.add {l : DeclarationLayout} {ds : List Declaration} (h : l.Holds ds)
    (d : Declaration) : (l.add d).Holds (ds ++ [d]) := by
  have hlast : ∃ place, (l.add d).order = l.order ++ [place] ∧ (l.add d).item? place = some d := by
    cases d <;> exact ⟨_, rfl, by simp [DeclarationLayout.add, item?]⟩
  obtain ⟨place, horder, hplace⟩ := hlast
  have hbefore : List.Forall₂ (fun place d' => (l.add d).item? place = some d') l.order ds :=
    h.imp fun _ _ hentry => item?_add hentry d
  rw [Holds, horder]
  exact List.rel_append hbefore (.cons hplace .nil)

theorem holds_ofList (ds : List Declaration) : (ofList ds).Holds ds := by
  induction ds using List.reverseRecOn with
  | nil => exact .nil
  | append_singleton ds d ih =>
    rw [ofList, List.foldl_append]
    exact Holds.add ih d

theorem follows_build (c : Context) (imports : Option Imports) (inProtocol : Bool)
    {l : DeclarationLayout} {places : List (Table × Nat)} {ds : List Declaration}
    (h : List.Forall₂ (fun place d => l.item? place = some d) places ds) :
    Follows (l.build c imports inProtocol places) (addDeclarations c imports inProtocol ds) := by
  induction h with
  | nil => exact follows_pure _
  | cons hplace _ ih =>
    rw [build, hplace, addDeclarations]
    exact (follows_lift _).bind fun _ => ih

end DeclarationLayout

/-! ### Units -/

/-- The types that a declaration gives to the build of types, apart from a result. -/
def Declaration.types : Declaration → List TypeNode
  | .record d => d.fields.map (·.type)
  | .message d => d.parameters.map (·.type)
  | _ => []

namespace SourceUnit

open Build

/-- The type that a list of types is read for. -/
def main? (u : SourceUnit) : Option TypeNode :=
  match u.body with
  | .protocol _ => none
  | .schemas _ main _ => main

/-- The types of fields, of parameters, and of the main schema. -/
def types (u : SourceUnit) : List TypeNode :=
  u.main?.toList ++ u.declarations.flatMap Declaration.types

/-- The builds from the layout never get to where they cannot go on. -/
structure BuildsFromLayout (u : SourceUnit) : Prop where
  types : ∀ t ∈ u.types, ∀ c, Follows (t.layout.schema c 0) (typeOf c t)
  results : ∀ d, .message d ∈ u.declarations → ∀ c,
    Follows (d.result.layout.response c d.name.text d.isOneWay)
      (responseOf c d.name.text d.isOneWay d.result)
  declarations : ∀ c imports inProtocol,
    Follows ((DeclarationLayout.ofList u.declarations).build c imports inProtocol
      (DeclarationLayout.ofList u.declarations).order)
      (addDeclarations c imports inProtocol u.declarations)

theorem WellFormed.main {u : SourceUnit} (h : u.WellFormed) : ∀ t ∈ u.main?, t.WellFormed := by
  obtain ⟨body, orphans⟩ := u
  cases body with
  | protocol p => simp [main?]
  | schemas space main ds => exact h.1

theorem WellFormed.types {u : SourceUnit} (h : u.WellFormed) : ∀ t ∈ u.types, t.WellFormed := by
  intro t ht
  rcases List.mem_append.mp ht with hmain | hdeclared
  · exact h.main t (Option.mem_toList.mp hmain)
  · obtain ⟨d, hd, ht⟩ := List.mem_flatMap.mp hdeclared
    have hwell := h.declaration d hd
    cases d with
    | record d =>
      obtain ⟨f, hf, rfl⟩ := List.mem_map.mp ht
      exact ((show d.WellFormed from hwell).fields f hf).type
    | message d =>
      obtain ⟨p, hp, rfl⟩ := List.mem_map.mp ht
      exact ((show d.WellFormed from hwell).parameters p hp).type
    | _ => cases ht

theorem WellFormed.buildsFromLayout {u : SourceUnit} (h : u.WellFormed) : u.BuildsFromLayout where
  types t ht c := TypeLayout.follows_typeOf c (h.types t ht)
  results _ hd c :=
    TypeLayout.follows_responseOf c _ _ (h.message hd).result
  declarations c imports inProtocol :=
    DeclarationLayout.follows_build c imports inProtocol (DeclarationLayout.holds_ofList _)

end SourceUnit

end AvroIdl
