import AvroIdl.Proofs.ReadBack
import AvroIdl.Proofs.ReadShape
import Mathlib.Logic.Relation

/-!
# How a document shows types

A schema stands in a document as its definition or as a name. `Depicts` tells which JSON values show
a schema, and lists the named types that occur in them, in the order of the document. From that it
follows which types a document defines, whatever wrote it: those to which the types that it mentions
lead.
-/
namespace AvroIdl

namespace Schema

/-- The head of the type that a schema defines, which may be the base of a logical one. -/
def definedHead? : Schema → Option Head
  | record h _ _ | enumeration h _ _ | fixed h _ => some h
  | compound (.logical _ _ _) (fixed h _ :: _) _ => some h
  | _ => none

theorem exists_definedHead? {s : Schema} (h : s.isNamed = true) :
    ∃ head, s.definedHead? = some head ∧ head.full = s.full := by
  cases s with
  | record head e fields => exact ⟨head, rfl, rfl⟩
  | enumeration head symbols d => exact ⟨head, rfl, rfl⟩
  | fixed head size => exact ⟨head, rfl, rfl⟩
  | compound shape parts n =>
    obtain ⟨k, precision, scale, head, size, rest, rfl, rfl⟩ := Document.exists_fixed_of_isNamed h
    exact ⟨head, rfl, rfl⟩
  | primitive p n => cases h
  | reference ref => cases h

/-- The named types that a schema uses, without those inside their definitions. -/
inductive Mentions : Schema → Text → Prop
  | reference (ref : Reference) : Mentions (.reference ref) ref.full
  | defined {s : Schema} {h : Head} (head : s.definedHead? = some h) : Mentions s h.full
  | part {word key full : Text} {shape : Shape} {s : Schema} {rest : List Schema} {n : Note}
      (container : Document.containerOf? word = some (shape, key)) (inside : Mentions s full) :
      Mentions (.compound shape (s :: rest) n) full
  | branch {isOptional : Bool} {parts : List Schema} {n : Note} {s : Schema} {full : Text}
      (member : s ∈ parts) (inside : Mentions s full) :
      Mentions (.compound (.union isOptional) parts n) full

theorem array_or_map_of_containerOf? {word key : Text} {shape : Shape}
    (h : Document.containerOf? word = some (shape, key)) : shape = .array ∨ shape = .map :=
  (Document.containerOf?_eq_some h).imp (·.2.1) (·.2.1)

theorem Mentions.eq_of_definedHead? {s : Schema} {full : Text} {h : Head} (hm : s.Mentions full)
    (hs : s.definedHead? = some h) : full = h.full := by
  cases hm with
  | reference ref => cases hs
  | defined head =>
    cases head.symm.trans hs
    rfl
  | part container inside =>
    rcases array_or_map_of_containerOf? container with rfl | rfl <;> cases hs
  | branch member inside => cases hs

theorem Mentions.exists_branch {isOptional : Bool} {parts : List Schema} {n : Note} {full : Text}
    (h : (compound (.union isOptional) parts n).Mentions full) :
    ∃ s ∈ parts, s.Mentions full := by
  cases h with
  | defined head => cases head
  | part container inside =>
    rcases array_or_map_of_containerOf? container with h | h <;> cases h
  | branch member inside => exact ⟨_, member, inside⟩

end Schema

namespace Registry

/-- A definition that stands in a type is the registered one of its name. -/
def Knows (r : Registry) (t : Schema) : Prop :=
  ∀ h, t.head? = some h → ∃ s, r.find? h.full = some s ∧ s.core = t

/-- Named types stand in the registered types and in messages as references, or as the definition
that is registered. -/
def Coherent (r : Registry) (messages : List Message) : Prop :=
  ∀ s ∈ r.unitTypes messages none, s.Everywhere r.Knows

/-- A registered record mentions the other type in a field. -/
def Leads (r : Registry) (full other : Text) : Prop :=
  ∃ h isError fields, r.find? full = some (.record h isError fields) ∧
    ∃ f ∈ fields, f.type.Mentions other

/-- One type is used by the other, or by a type that the other uses, and so on. -/
def Reaches (r : Registry) : Text → Text → Prop := Relation.ReflTransGen r.Leads

theorem mem_names_of_find? {r : Registry} {full : Text} {s : Schema} (h : r.find? full = some s) :
    full ∈ r.names := by
  obtain ⟨e, he, rfl, rfl⟩ := exists_entry_of_find? h
  exact List.mem_map_of_mem he

theorem find?_of_knows {r : Registry} (hr : r.Lawful) {h : Head} {isError : Bool}
    {fields : List Field} (hk : r.Knows (.record h isError fields)) :
    r.find? h.full = some (.record h isError fields) := by
  obtain ⟨s, hfind, hcore⟩ := hk h rfl
  obtain ⟨e, he, rfl, -⟩ := exists_entry_of_find? hfind
  have hnamed := hr.named e he
  cases hs : e.schema with
  | record head e' fields' =>
    rw [hs] at hfind hcore
    exact hfind.trans (congrArg some hcore)
  | compound shape parts n =>
    rw [hs] at hnamed hcore
    obtain ⟨k, precision, scale, head, size, rest, rfl, rfl⟩ :=
      Document.exists_fixed_of_isNamed hnamed
    cases hcore
  | _ =>
    rw [hs] at hcore
    cases hcore

/-- Only a record leads anywhere, and it is the one that is registered. -/
theorem Leads.exists_field {r : Registry} {t : Schema} {h : Head} {other : Text}
    (hl : r.Leads h.full other) (hk : r.Knows t) (ht : t.head? = some h) :
    ∃ isError fields, t = .record h isError fields ∧ ∃ f ∈ fields, f.type.Mentions other := by
  obtain ⟨head, isError, fields, hfind, hfield⟩ := hl
  obtain ⟨s, hs, rfl⟩ := hk h ht
  cases hs.symm.trans hfind
  cases ht
  exact ⟨isError, fields, rfl, hfield⟩

end Registry

namespace Document

/-- A named type where it occurs in a document: its definition starts there, or it is named. -/
inductive Occurrence where
  | definition (full : Text)
  | name (full : Text)
  deriving DecidableEq, Repr

def Occurrence.full : Occurrence → Text
  | definition full | name full => full

/-- The full names that are defined, in order. -/
def definitions (marks : List Occurrence) : List Text :=
  marks.filterMap fun
    | .definition full => some full
    | .name _ => none

/-- Something that was written, and the types that occur in what was written for it. -/
structure Row (α : Type) where
  source : α
  json : Json
  marks : List Occurrence

/-- The JSON value shows the schema in an enclosing namespace, and the marks are the named types
that occur in it. -/
inductive Depicts (r : Registry) : Option Text → Schema → Json → List Occurrence → Prop
  | primitive {enclosing : Option Text} (p : Primitive) (n : Note) :
    Depicts r enclosing (.primitive p n)
      (if n.properties.isEmpty then .string p.text
        else .object ((member "type" (.string p.text)).merge n.properties)) []
  | name {enclosing : Option Text} (ref : Reference) :
    Depicts r enclosing (.reference ref) (.string (relativeName ref.name ref.space enclosing))
      [.name ref.full]
  | target {enclosing : Option Text} {ref : Reference} {s : Schema} {j : Json}
      {marks : List Occurrence} (found : r.find? ref.full = some s)
      (shown : Depicts r enclosing s j marks) :
    Depicts r enclosing (.reference ref) j marks
  | again {enclosing : Option Text} {s : Schema} {h : Head} (head : s.definedHead? = some h) :
    Depicts r enclosing s (.string (relativeName h.name h.space enclosing)) [.name h.full]
  | record {enclosing : Option Text} {h : Head} (isError : Bool) {rows : List (Row Field)}
      (shown : ∀ x ∈ rows, Depicts r (fieldNamespace h enclosing) x.source.type x.json x.marks) :
    Depicts r enclosing (.record h isError (rows.map (·.source)))
      (.object ((recordMembers h isError enclosing
        (rows.map fun x => .object (fieldMembers x.source x.json))).merge h.properties))
      (.definition h.full :: rows.flatMap (·.marks))
  | enumeration {enclosing : Option Text} (h : Head) (symbols : List Text) (d : Option Text) :
    Depicts r enclosing (.enumeration h symbols d)
      (.object ((enumMembers h enclosing symbols d).merge h.properties)) [.definition h.full]
  | fixed {enclosing : Option Text} (h : Head) (size : Nat) :
    Depicts r enclosing (.fixed h size)
      (.object ((fixedMembers h enclosing size).merge h.properties)) [.definition h.full]
  | meaning {enclosing : Option Text} (k : LogicalKind) (precision scale : Nat) (h : Head)
      (size : Nat) (rest : List Schema) (n : Note) :
    Depicts r enclosing (.compound (.logical k precision scale) (.fixed h size :: rest) n)
      (.object (((fixedMembers h enclosing size ++ logicalMembers k precision scale).merge
        h.properties).merge n.properties)) [.definition h.full]
  | logical {enclosing : Option Text} (k : LogicalKind) (precision scale : Nat) {base : Schema}
      (plain : ∀ h size, base ≠ .fixed h size) (rest : List Schema) (n : Note) :
    Depicts r enclosing (.compound (.logical k precision scale) (base :: rest) n)
      (.object (((member "type" (.string base.kind.text) ++ logicalMembers k precision scale).merge
        base.properties).merge n.properties)) []
  | container {enclosing : Option Text} {word key : Text} {shape : Shape} {s : Schema} {j : Json}
      {marks : List Occurrence} (shape_of : containerOf? word = some (shape, key))
      (shown : Depicts r enclosing s j marks) (rest : List Schema) (n : Note) :
    Depicts r enclosing (.compound shape (s :: rest) n)
      (.object ((member "type" (.string word) ++ member key j).merge n.properties)) marks
  | union {enclosing : Option Text} (isOptional : Bool) {rows : List (Row Schema)}
      (shown : ∀ x ∈ rows, Depicts r enclosing x.source x.json x.marks) (n : Note) :
    Depicts r enclosing (.compound (.union isOptional) (rows.map (·.source)) n)
      (.array (rows.map (·.json))) (rows.flatMap (·.marks))
  | hollow {enclosing : Option Text} {shape : Shape} (closed : ∀ o, shape ≠ .union o) (n : Note) :
    Depicts r enclosing (.compound shape [] n) .null []

section Depicts

variable {r : Registry} {enclosing : Option Text} {s : Schema} {j : Json} {marks : List Occurrence}

/-- What a schema mentions occurs in a value that shows it. -/
theorem Depicts.exists_mark (h : Depicts r enclosing s j marks) (hr : r.Lawful) {full : Text}
    (hm : s.Mentions full) : ∃ mark ∈ marks, mark.full = full := by
  induction h with
  | primitive p n =>
    cases hm with
    | defined head => cases head
  | name ref =>
    cases hm with
    | defined head => cases head
    | reference => exact ⟨_, List.mem_singleton_self _, rfl⟩
  | @target _ ref _ _ _ found shown ih =>
    obtain ⟨e, he, rfl, hfull⟩ := Registry.exists_entry_of_find? found
    obtain ⟨head, hhead, hsame⟩ := Schema.exists_definedHead? (hr.named e he)
    have hfull : full = ref.full := by
      cases hm with
      | defined head => cases head
      | reference => rfl
    have hmention := Schema.Mentions.defined hhead
    rw [hsame, ‹e.schema.full = ref.full›, ← hfull] at hmention
    exact ih hmention
  | again head => exact ⟨_, List.mem_singleton_self _, (hm.eq_of_definedHead? head).symm⟩
  | record isError shown ih => exact ⟨_, List.mem_cons_self, (hm.eq_of_definedHead? rfl).symm⟩
  | enumeration h symbols d =>
    exact ⟨_, List.mem_singleton_self _, (hm.eq_of_definedHead? rfl).symm⟩
  | fixed h size => exact ⟨_, List.mem_singleton_self _, (hm.eq_of_definedHead? rfl).symm⟩
  | meaning k precision scale h size rest n =>
    exact ⟨_, List.mem_singleton_self _, (hm.eq_of_definedHead? rfl).symm⟩
  | @logical _ k precision scale base plain rest n =>
    cases hm with
    | defined head =>
      cases base with
      | fixed h size => exact absurd rfl (plain h size)
      | _ => cases head
    | part container inside =>
      rcases Schema.array_or_map_of_containerOf? container with h | h <;> cases h
  | container shape_of shown rest n ih =>
    cases hm with
    | defined head =>
      rcases Schema.array_or_map_of_containerOf? shape_of with rfl | rfl <;> cases head
    | part _ inside => exact ih inside
    | branch member inside =>
      rcases Schema.array_or_map_of_containerOf? shape_of with h | h <;> cases h
  | union isOptional shown n ih =>
    obtain ⟨t, ht, hinside⟩ := hm.exists_branch
    obtain ⟨x, hx, rfl⟩ := List.mem_map.mp ht
    obtain ⟨mark, hmark, hfull⟩ := ih x hx hinside
    exact ⟨mark, List.mem_flatMap.mpr ⟨x, hx, hmark⟩, hfull⟩
  | @hollow _ shape closed n =>
    cases hm with
    | defined head => cases shape <;> cases head
    | branch member inside => exact absurd rfl (closed _)

section Coherent

variable (hr : r.Lawful) (hentries : ∀ e ∈ r.entries, e.schema.Everywhere r.Knows)

include hr hentries

/-- Whatever the definition of a type leads to occurs beside it. -/
theorem Depicts.exists_mark_of_leads (h : Depicts r enclosing s j marks)
    (hs : s.Everywhere r.Knows) {full other : Text} (hd : .definition full ∈ marks)
    (hl : r.Leads full other) : ∃ mark ∈ marks, mark.full = other := by
  induction h with
  | primitive p n => cases hd
  | name ref => cases List.mem_singleton.mp hd
  | target found shown ih =>
    obtain ⟨e, he, rfl, -⟩ := Registry.exists_entry_of_find? found
    exact ih (hentries e he) hd
  | again head => cases List.mem_singleton.mp hd
  | @record _ h isError rows shown ih =>
    obtain ⟨hself, hfields⟩ := Schema.everywhere_record_iff.mp hs
    rcases List.mem_cons.mp hd with heq | hd
    · cases heq
      obtain ⟨_, _, hsame, f, hf, hmention⟩ := hl.exists_field hself rfl
      cases hsame
      obtain ⟨x, hx, rfl⟩ := List.mem_map.mp hf
      obtain ⟨mark, hmark, hfull⟩ := (shown x hx).exists_mark hr hmention
      exact ⟨mark, List.mem_cons_of_mem _ (List.mem_flatMap.mpr ⟨x, hx, hmark⟩), hfull⟩
    · obtain ⟨x, hx, hd⟩ := List.mem_flatMap.mp hd
      obtain ⟨mark, hmark, hfull⟩ := ih x hx (hfields _ (List.mem_map_of_mem hx)) hd
      exact ⟨mark, List.mem_cons_of_mem _ (List.mem_flatMap.mpr ⟨x, hx, hmark⟩), hfull⟩
  | enumeration h symbols d =>
    cases List.mem_singleton.mp hd
    obtain ⟨_, _, hsame, -⟩ := hl.exists_field hs.self rfl
    cases hsame
  | fixed h size =>
    cases List.mem_singleton.mp hd
    obtain ⟨_, _, hsame, -⟩ := hl.exists_field hs.self rfl
    cases hsame
  | meaning k precision scale h size rest n =>
    cases List.mem_singleton.mp hd
    have hbase := (Schema.everywhere_compound_iff.mp hs).2 _ List.mem_cons_self
    obtain ⟨_, _, hsame, -⟩ := hl.exists_field hbase.self rfl
    cases hsame
  | logical k precision scale plain rest n => cases hd
  | container shape_of shown rest n ih =>
    exact ih ((Schema.everywhere_compound_iff.mp hs).2 _ List.mem_cons_self) hd
  | union isOptional shown n ih =>
    obtain ⟨x, hx, hd⟩ := List.mem_flatMap.mp hd
    have hpart := (Schema.everywhere_compound_iff.mp hs).2 _ (List.mem_map_of_mem hx)
    obtain ⟨mark, hmark, hfull⟩ := ih x hx hpart hd
    exact ⟨mark, List.mem_flatMap.mpr ⟨x, hx, hmark⟩, hfull⟩
  | hollow closed n => cases hd

/-- A type is defined only where a type that is mentioned leads to it. -/
theorem Depicts.exists_reaches (h : Depicts r enclosing s j marks) (hs : s.Everywhere r.Knows)
    {full : Text} (hd : .definition full ∈ marks) :
    full ∈ r.names ∧ ∃ first, s.Mentions first ∧ r.Reaches first full := by
  have hown : ∀ {t : Schema} {h : Head}, r.Knows t → t.head? = some h → h.full ∈ r.names := by
    intro t h hk ht
    obtain ⟨_, hfind, -⟩ := hk h ht
    exact Registry.mem_names_of_find? hfind
  induction h with
  | primitive p n => cases hd
  | name ref => cases List.mem_singleton.mp hd
  | @target _ ref s j marks found shown ih =>
    obtain ⟨e, he, rfl, hfull⟩ := Registry.exists_entry_of_find? found
    obtain ⟨hname, first, hmention, hreach⟩ := ih (hentries e he) hd
    obtain ⟨head, hhead, hsame⟩ := Schema.exists_definedHead? (hr.named e he)
    have hfirst : first = ref.full :=
      (hmention.eq_of_definedHead? hhead).trans (hsame.trans hfull)
    exact ⟨hname, first, hfirst ▸ .reference ref, hreach⟩
  | again head => cases List.mem_singleton.mp hd
  | @record _ h isError rows shown ih =>
    obtain ⟨hself, hfields⟩ := Schema.everywhere_record_iff.mp hs
    rcases List.mem_cons.mp hd with heq | hd
    · cases heq
      exact ⟨hown hself rfl, h.full, .defined rfl, .refl⟩
    · obtain ⟨x, hx, hd⟩ := List.mem_flatMap.mp hd
      have hmem := List.mem_map_of_mem (f := Row.source) hx
      obtain ⟨hname, first, hmention, hreach⟩ := ih x hx (hfields _ hmem) hd
      have hleads : r.Leads h.full first :=
        ⟨h, isError, _, Registry.find?_of_knows hr hself, x.source, hmem, hmention⟩
      exact ⟨hname, h.full, .defined rfl, .head hleads hreach⟩
  | enumeration h symbols d =>
    cases List.mem_singleton.mp hd
    exact ⟨hown hs.self rfl, h.full, .defined rfl, .refl⟩
  | fixed h size =>
    cases List.mem_singleton.mp hd
    exact ⟨hown hs.self rfl, h.full, .defined rfl, .refl⟩
  | meaning k precision scale h size rest n =>
    cases List.mem_singleton.mp hd
    have hbase := (Schema.everywhere_compound_iff.mp hs).2 _ List.mem_cons_self
    exact ⟨hown hbase.self rfl, h.full, .defined rfl, .refl⟩
  | logical k precision scale plain rest n => cases hd
  | container shape_of shown rest n ih =>
    obtain ⟨hname, first, hmention, hreach⟩ :=
      ih ((Schema.everywhere_compound_iff.mp hs).2 _ List.mem_cons_self) hd
    exact ⟨hname, first, .part shape_of hmention, hreach⟩
  | union isOptional shown n ih =>
    obtain ⟨x, hx, hd⟩ := List.mem_flatMap.mp hd
    have hmem := List.mem_map_of_mem (f := Row.source) hx
    obtain ⟨hname, first, hmention, hreach⟩ :=
      ih x hx ((Schema.everywhere_compound_iff.mp hs).2 _ hmem) hd
    exact ⟨hname, first, .branch hmem hmention, hreach⟩
  | hollow closed n => cases hd

end Coherent

end Depicts

end Document

end AvroIdl
