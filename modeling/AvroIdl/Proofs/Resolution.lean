import AvroIdl.Proofs.SchemaPaths

/-!
# What resolving does to a unit

Resolving goes through the registered types, the messages and the main schema. Where no type lies
too deep, every reference is either bound to the place of its name or reported, once and in the
order of the places, and nothing else changes.
-/
namespace AvroIdl.Registry

/-- The types of a unit with their files: the registered types in the order of their registration,
then of every message the types of its parameters, its response and its errors, then the main
schema. -/
def locatedTypes (r : Registry) (messages : List Message) (main : Option Schema) :
    List (Text × Schema) :=
  r.entries.map (fun e => (e.origin, e.schema)) ++
    (messages.flatMap Message.types ++ main.toList).map fun s => (r.file, s)

/-- The type at a place of a unit, and its file. The first step goes to one of the types of the
unit, and the others are a path into it. -/
def typeAt? (r : Registry) (messages : List Message) (main : Option Schema) :
    List Nat → Option (Text × Schema)
  | [] => none
  | i :: path =>
    (r.locatedTypes messages main)[i]?.bind fun x => (x.2.at? path).map fun t => (x.1, t)

/-- No type lies more than 256 steps below a type of the unit. -/
def Shallow (r : Registry) (messages : List Message) (main : Option Schema) : Prop :=
  ∀ i path x, r.typeAt? messages main (i :: path) = some x → path.length ≤ 256

/-- The type at a place after resolving. -/
def Resolution.typeAt? (after : Resolution) : List Nat → Option (Text × Schema) :=
  after.registry.typeAt? after.messages after.main

section Places

variable {r : Registry} {messages : List Message} {main : Option Schema} {i : Nat}
  {path place : List Nat} {file : Text} {t : Schema}

theorem typeAt?_cons_eq_some_iff :
    r.typeAt? messages main (i :: path) = some (file, t) ↔
      ∃ s, (r.locatedTypes messages main)[i]? = some (file, s) ∧ s.at? path = some t := by
  rw [typeAt?, Option.bind_eq_some_iff]
  constructor
  · rintro ⟨⟨file', s⟩, hs, ht⟩
    obtain ⟨t', ht', heq⟩ := Option.map_eq_some_iff.mp ht
    obtain ⟨rfl, rfl⟩ := Prod.mk.inj heq
    exact ⟨s, hs, ht'⟩
  · rintro ⟨s, hs, ht⟩
    exact ⟨(file, s), hs, by rw [ht]; rfl⟩

theorem shallow_iff :
    r.Shallow messages main ↔ ∀ x ∈ r.locatedTypes messages main, x.2.fits 256 = true := by
  simp only [Schema.fits_iff]
  constructor
  · rintro h ⟨file, s⟩ hs path t ht
    obtain ⟨i, hi⟩ := List.mem_iff_getElem?.mp hs
    exact h i path (file, t) (typeAt?_cons_eq_some_iff.mpr ⟨s, hi, ht⟩)
  · rintro h i path ⟨file, t⟩ ht
    obtain ⟨s, hs, ht⟩ := typeAt?_cons_eq_some_iff.mp ht
    exact h _ (List.mem_of_getElem? hs) path t ht

instance : Decidable (r.Shallow messages main) := decidable_of_iff _ shallow_iff.symm

theorem locatedReferences_eq :
    r.locatedReferences messages main = (r.locatedTypes messages main).flatMap fun x =>
      x.2.allReferences.map fun ref => (x.1, ref) := by
  simp [locatedReferences, locatedTypes, List.flatMap_map, List.map_flatMap, List.flatMap_assoc,
    Message.allReferences_eq]

/-- The references of a shallow unit are gathered in the order of their places. -/
theorem enumerates_locatedReferences (h : r.Shallow messages main) :
    Enumerates (fun place x => r.typeAt? messages main place = some (x.1, .reference x.2))
      (r.locatedReferences messages main) := by
  rw [locatedReferences_eq]
  refine (Enumerates.flatMap (fun x _ =>
    (Schema.enumerates_references Schema.bindingLevels x.2).map fun ref => (x.1, ref)) 0).congr
    fun place x => ?_
  cases place with
  | nil => simp [typeAt?]
  | cons i path =>
    obtain ⟨file, ref⟩ := x
    rw [typeAt?_cons_eq_some_iff]
    constructor
    · rintro ⟨i', p, ⟨file', s⟩, hplace, hs, ref', ⟨-, hp⟩, heq⟩
      obtain ⟨rfl, rfl⟩ := List.cons.inj hplace
      obtain ⟨rfl, rfl⟩ := Prod.mk.inj heq
      exact ⟨s, by rw [Nat.zero_add]; exact hs, hp⟩
    · rintro ⟨s, hs, hp⟩
      have hlength := h i path _ (typeAt?_cons_eq_some_iff.mpr ⟨s, hs, hp⟩)
      refine ⟨i, path, (file, s), by rw [Nat.zero_add], hs, ref, ⟨?_, hp⟩, rfl⟩
      exact Nat.lt_succ_of_le hlength

theorem locatedTypes_resolveAll :
    (r.resolveAll messages main).registry.locatedTypes (r.resolveAll messages main).messages
        (r.resolveAll messages main).main =
      (r.locatedTypes messages main).map fun x => (x.1, x.2.bindAll r.indexOf?) := by
  have hmessages : (messages.map (Message.bindAll r.indexOf?)).flatMap Message.types =
      (messages.flatMap Message.types).map (Schema.bindAll r.indexOf?) := by
    simp [List.flatMap_map, List.map_flatMap, Message.types_bindAll]
  cases main <;> simp [locatedTypes, resolveAll, hmessages, Function.comp_def]

/-- Resolving keeps every type in its place. -/
theorem typeAt?_resolveAll :
    (r.resolveAll messages main).typeAt? (i :: path) =
      (r.typeAt? messages main (i :: path)).map fun x =>
        (x.1, Schema.bind r.indexOf? (Schema.bindingLevels - path.length) x.2) := by
  rw [Resolution.typeAt?, typeAt?, locatedTypes_resolveAll, List.getElem?_map, typeAt?]
  cases (r.locatedTypes messages main)[i]? with
  | none => rfl
  | some x => simp [Schema.bindAll, Schema.at?_bind, Function.comp_def]

/-- In a shallow unit there is a level left for every type. -/
theorem Shallow.exists_levels (h : r.Shallow messages main) {x : Text × Schema}
    (hx : r.typeAt? messages main (i :: path) = some x) :
    ∃ left, Schema.bindingLevels - path.length = left + 1 := by
  have hlength := h i path x hx
  apply Nat.exists_eq_succ_of_ne_zero
  unfold Schema.bindingLevels
  omega

/-- The references after resolving are those before, bound. -/
theorem typeAt?_resolveAll_reference_iff (h : r.Shallow messages main) {ref : Reference} :
    (r.resolveAll messages main).typeAt? place = some (file, .reference ref) ↔
      ∃ ref₀, r.typeAt? messages main place = some (file, .reference ref₀) ∧
        ref = ref₀.bind r.indexOf? := by
  cases place with
  | nil => simp [Resolution.typeAt?, typeAt?]
  | cons i path =>
    rw [typeAt?_resolveAll, Option.map_eq_some_iff]
    constructor
    · rintro ⟨⟨file', t⟩, ht, heq⟩
      obtain ⟨left, hleft⟩ := h.exists_levels ht
      rw [hleft] at heq
      obtain ⟨rfl, hbind⟩ := Prod.mk.inj heq
      cases t with
      | reference ref₀ =>
        rw [Schema.bind_reference] at hbind
        exact ⟨ref₀, ht, (Schema.reference.inj hbind).symm⟩
      | _ => simp at hbind
    · rintro ⟨ref₀, ht, rfl⟩
      obtain ⟨left, hleft⟩ := h.exists_levels ht
      exact ⟨_, ht, by rw [hleft, Schema.bind_reference]⟩

end Places

/-- What resolving a unit leaves. -/
structure Resolves (r : Registry) (messages : List Message) (main : Option Schema)
    (after : Resolution) : Prop where
  /-- A reference to a registered type is bound to its place in the registry. -/
  bound : ∀ place file ref i, after.typeAt? place = some (file, .reference ref) →
    r.indexOf? ref.full = some i → ref.binding = some i
  /-- Nothing is reported exactly if there is no other reference. -/
  silent : after.failure = none ↔
    ∀ place file ref, after.typeAt? place = some (file, .reference ref) →
      ∃ i, r.indexOf? ref.full = some i ∧ ref.binding = some i
  /-- Every other reference is reported once, in the order of the places, with its file and span. -/
  reported : ∀ d, after.failure = some d → d.kind = .unresolvedReferences ∧
    Enumerates (fun place u => ∃ file ref,
      after.typeAt? place = some (file, .reference ref) ∧ r.indexOf? ref.full = none ∧
        u = r.unresolved file ref ∧ u.kind = .unresolvedReference ∧ u.file = file ∧
        u.span = ref.span) d.related
  entries : after.registry.entries.map Entry.unbound = r.entries.map Entry.unbound
  file : after.registry.file = r.file
  messages : after.messages.map Message.unbound = messages.map Message.unbound
  main : after.main.map Schema.unbound = main.map Schema.unbound

section Resolution

variable {r : Registry} {messages : List Message} {main : Option Schema}

theorem contains_eq_false_iff {full : Text} : r.contains full = false ↔ r.indexOf? full = none := by
  simp [contains, indexOf?, List.idxOf?_eq_none_iff]

theorem unresolvedBundle_eq_some {refs : List (Text × Reference)} {d : Diagnostic}
    (h : r.unresolvedBundle refs = some d) :
    d.kind = .unresolvedReferences ∧ d.related = refs.map fun x => r.unresolved x.1 x.2 := by
  cases refs with
  | nil => cases h
  | cons x rest =>
    obtain rfl := Option.some.inj h
    exact ⟨rfl, rfl⟩

/-- The references that are reported are those without a place in the registry. -/
theorem enumerates_unresolved (h : r.Shallow messages main) :
    Enumerates (fun place x =>
        (r.resolveAll messages main).typeAt? place = some (x.1, .reference x.2) ∧
          r.indexOf? x.2.full = none)
      ((r.locatedReferences messages main).filter fun x => !r.contains x.2.full) := by
  refine ((enumerates_locatedReferences h).filter _).congr fun place x => ?_
  rw [typeAt?_resolveAll_reference_iff h, Bool.not_eq_true', contains_eq_false_iff]
  have hsame (ref : Reference) (hnone : r.indexOf? ref.full = none) :
      ref.bind r.indexOf? = ref := by
    rw [Reference.bind, hnone]
  constructor
  · rintro ⟨ht, hnone⟩
    exact ⟨⟨x.2, ht, (hsame _ hnone).symm⟩, hnone⟩
  · rintro ⟨⟨ref, ht, heq⟩, hnone⟩
    rw [heq, Reference.full_bind] at hnone
    rw [heq, hsame _ hnone]
    exact ⟨ht, hnone⟩

theorem bound_resolveAll (h : r.Shallow messages main) {place : List Nat} {file : Text}
    {ref : Reference} {i : Nat}
    (ht : (r.resolveAll messages main).typeAt? place = some (file, .reference ref))
    (hi : r.indexOf? ref.full = some i) : ref.binding = some i := by
  obtain ⟨ref₀, -, rfl⟩ := (typeAt?_resolveAll_reference_iff h).mp ht
  rw [Reference.full_bind] at hi
  exact Reference.binding_bind hi

theorem silent_resolveAll_iff (h : r.Shallow messages main) :
    (r.resolveAll messages main).failure = none ↔
      ∀ place file ref, (r.resolveAll messages main).typeAt? place = some (file, .reference ref) →
        ∃ i, r.indexOf? ref.full = some i ∧ ref.binding = some i := by
  refine unresolvedBundle_eq_none_iff.trans ((enumerates_unresolved h).eq_nil_iff.trans ?_)
  constructor
  · intro hnone place file ref ht
    obtain ⟨i, hi⟩ := Option.ne_none_iff_exists'.mp fun hi => hnone place (file, ref) ⟨ht, hi⟩
    exact ⟨i, hi, bound_resolveAll h ht hi⟩
  · rintro hbound place ⟨file, ref⟩ ⟨ht, hnone⟩
    obtain ⟨i, hi, -⟩ := hbound place file ref ht
    rw [hnone] at hi
    cases hi

/-- Resolving binds or reports every reference and changes nothing else. -/
theorem resolves_resolveAll (h : r.Shallow messages main) :
    r.Resolves messages main (r.resolveAll messages main) where
  bound _ _ _ _ ht hi := bound_resolveAll h ht hi
  silent := silent_resolveAll_iff h
  reported d hd := by
    obtain ⟨hkind, hrelated⟩ := unresolvedBundle_eq_some hd
    refine ⟨hkind, ?_⟩
    rw [hrelated]
    refine ((enumerates_unresolved h).map _).congr fun place u => ?_
    constructor
    · rintro ⟨⟨file, ref⟩, ⟨ht, hnone⟩, rfl⟩
      exact ⟨file, ref, ht, hnone, rfl, rfl, rfl, rfl⟩
    · rintro ⟨file, ref, ht, hnone, rfl, -⟩
      exact ⟨(file, ref), ⟨ht, hnone⟩, rfl⟩
  entries := unbound_entries_resolveAll r messages main
  file := rfl
  messages := unbound_messages_resolveAll r messages main
  main := by
    cases main <;> simp [resolveAll]

end Resolution

/-- A type that refers to itself and to one that is not there, and another one that does. -/
def graph : Registry :=
  { file := "graph.avdl"
    entries :=
      [⟨.record { name := "Node" } false
          [{ name := "next", type := .reference { name := "Node" } },
            { name := "ends", type := .compound .array [.reference { name := "Edge" }] {} }],
          "graph.avdl"⟩,
        ⟨.record { name := "Label" } false
          [{ name := "text", type := .reference { name := "Word" } }], "label.avdl"⟩] }

/-- A message with a parameter that is there and a response that is not. -/
def walk : Message :=
  { name := "walk"
    request := [{ name := "start", type := .reference { name := "Node" } }]
    response := .reference { name := "Edge" } }

/-- Of the references of the unit two are bound and three are reported. -/
theorem resolves_graph :
    graph.Shallow [walk] none ∧ graph.Resolves [walk] none (graph.resolveAll [walk] none) ∧
      (graph.resolveAll [walk] none).failure.map (fun d => d.related.map (·.file)) =
        some [("graph.avdl" : Text), "label.avdl", "graph.avdl"] := by
  have hshallow : graph.Shallow [walk] none := by decide +kernel
  exact ⟨hshallow, resolves_resolveAll hshallow, by decide +kernel⟩

end AvroIdl.Registry
