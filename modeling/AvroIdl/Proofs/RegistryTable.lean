import AvroIdl.Proofs.Unbound
import Std.Data.HashMap

/-!
# The registry in three containers

A table keeps the registered types, the files they come from and the places of the full names in
three containers side by side. After every sequence of operations the three fit together, and the
table represents the registry to which the same operations lead; so what is read from one container
or by searching the entries is the same.
-/
namespace AvroIdl

namespace Registry

/-- The operations that change a registry. -/
inductive Operation where
  /-- Without an origin the type comes from the file that is compiled. -/
  | register (s : Schema) (origin : Text)
  | resolveAll (messages : List Message) (main : Option Schema)
  | release

/-- What an operation returns. -/
inductive Outcome where
  | registered (problem : Option Diagnostic)
  | resolved (messages : List Message) (main : Option Schema) (failure : Option Diagnostic)
  | released (entries : List Entry)

/-- Runs operations one after the other. -/
def Operation.run {σ : Type} (perform : σ → Operation → Outcome × σ) :
    σ → List Operation → List Outcome × σ
  | s, [] => ([], s)
  | s, op :: ops =>
    let (outcome, s') := perform s op
    let (outcomes, s'') := run perform s' ops
    (outcome :: outcomes, s'')

def perform (r : Registry) : Operation → Outcome × Registry
  | .register s origin =>
    match r.register s origin with
    | .ok r' => (.registered none, r')
    | .error d => (.registered (some d), r)
  | .resolveAll messages main =>
    let x := r.resolveAll messages main
    (.resolved x.messages x.main x.failure, x.registry)
  | .release =>
    let (entries, r') := r.release
    (.released entries, r')

/-- The file that a type comes from: the given one, or the one that is compiled. -/
def originOf (file origin : Text) : Text := if origin.isEmpty then file else origin

/-- The accepted registrations since the last release in their order, after those of before. -/
def registrations (file : Text) : List Entry → List (Operation × Outcome) → List Entry
  | es, [] => es
  | es, (.register s origin, .registered none) :: rest =>
    registrations file (es ++ [⟨s, originOf file origin⟩]) rest
  | _, (.release, _) :: rest => registrations file [] rest
  | es, _ :: rest => registrations file es rest

/-- A registry in three containers. -/
structure Table where
  /-- The file that is compiled. -/
  file : Text
  schemas : List Schema := []
  origins : List Text := []
  /-- The place of each full name. -/
  index : Std.HashMap Text Nat := ∅

namespace Table

def indexOf? (t : Table) (full : Text) : Option Nat := t.index[full]?

def find? (t : Table) (full : Text) : Option Schema :=
  (t.indexOf? full).bind fun i => t.schemas[i]?

/-- The entries that the containers hold together. -/
def entries (t : Table) : List Entry :=
  (t.schemas.zip t.origins).map fun (s, origin) => ⟨s, origin⟩

/-- The registry that a table represents. -/
def registry (t : Table) : Registry := { file := t.file, entries := t.entries }

/-- Registers a type of a file. -/
def register (t : Table) (s : Schema) (origin : Text) : Option Diagnostic × Table :=
  let file := originOf t.file origin
  if !s.isNamed then (some ((Problem.unnamed s).diagnostic file), t)
  else if !isLegalName s.core.ownName.1 s.core.ownName.2 then
    (some ((Problem.illegalName s.core).diagnostic file), t)
  else
    match t.index[s.full]? with
    | some i => (some ((Problem.duplicate s.core (t.origins.getD i [])).diagnostic file), t)
    | none =>
      (none, { t with index := t.index.insertIfNew s.full t.schemas.length
                      schemas := t.schemas ++ [s]
                      origins := t.origins ++ [file] })

/-- Binds the references of the registered types by the index. -/
def bindAll (t : Table) : Table := { t with schemas := t.schemas.map (Schema.bindAll t.indexOf?) }

/-- The references whose name is not in the index, as one diagnostic. -/
def failure? (t : Table) (messages : List Message) (main : Option Schema) : Option Diagnostic :=
  t.registry.unresolvedBundle
    ((t.registry.locatedReferences messages main).filter fun (_, ref) =>
      (t.indexOf? ref.full).isNone)

def release (t : Table) : List Entry × Table := (t.entries, { file := t.file })

def perform (t : Table) : Operation → Outcome × Table
  | .register s origin =>
    let (problem, t') := t.register s origin
    (.registered problem, t')
  | .resolveAll messages main =>
    (.resolved (messages.map (Message.bindAll t.indexOf?)) (main.map (Schema.bindAll t.indexOf?))
      (t.failure? messages main), t.bindAll)
  | .release =>
    let (entries, t') := t.release
    (.released entries, t')

/-- The three containers fit together, and hold only types that may be registered. -/
structure Consistent (t : Table) : Prop where
  origins_length : t.origins.length = t.schemas.length
  index_size : t.index.size = t.schemas.length
  indexOf?_iff : ∀ full i, t.indexOf? full = some i ↔ ∃ s, t.schemas[i]? = some s ∧ s.full = full
  named : ∀ s ∈ t.schemas, s.isNamed = true
  legal : ∀ s ∈ t.schemas, isLegalName s.core.ownName.1 s.core.ownName.2 = true

theorem consistent_empty (file : Text) : Consistent { file := file } := by
  refine ⟨rfl, by simp, ?_, by simp, by simp⟩
  intro full i
  simp [indexOf?]

section Consistent

variable {t : Table}

theorem Consistent.indexOf?_eq_none_iff (h : t.Consistent) {full : Text} :
    t.indexOf? full = none ↔ ∀ s ∈ t.schemas, s.full ≠ full := by
  constructor
  · rintro hnone s hs rfl
    obtain ⟨i, hi⟩ := List.mem_iff_getElem?.mp hs
    rw [(h.indexOf?_iff s.full i).mpr ⟨s, hi, rfl⟩] at hnone
    cases hnone
  · intro hnew
    rw [Option.eq_none_iff_forall_ne_some]
    intro i hi
    obtain ⟨s, hs, hfull⟩ := (h.indexOf?_iff full i).mp hi
    exact hnew s (List.mem_of_getElem? hs) hfull

/-! ### What the containers hold together -/

theorem Consistent.map_schema_entries (h : t.Consistent) :
    t.entries.map (·.schema) = t.schemas := by
  rw [entries, List.map_map]
  exact List.map_fst_zip (Nat.le_of_eq h.origins_length.symm)

theorem Consistent.map_origin_entries (h : t.Consistent) :
    t.entries.map (·.origin) = t.origins := by
  rw [entries, List.map_map]
  exact List.map_snd_zip (Nat.le_of_eq h.origins_length)

theorem Consistent.names_registry (h : t.Consistent) :
    t.registry.names = t.schemas.map Schema.full := by
  rw [← h.map_schema_entries, List.map_map]
  rfl

theorem Consistent.entries_getElem? (h : t.Consistent) {i : Nat} {s : Schema}
    (hs : t.schemas[i]? = some s) : t.entries[i]? = some ⟨s, t.origins.getD i []⟩ := by
  obtain ⟨hi, -⟩ := List.getElem?_eq_some_iff.mp hs
  have hi' : i < t.origins.length := h.origins_length ▸ hi
  have hpair : (t.schemas.zip t.origins)[i]? = some (s, t.origins[i]) :=
    List.getElem?_zip_eq_some.mpr ⟨hs, List.getElem?_eq_getElem hi'⟩
  simp [entries, hpair, hi']

theorem Consistent.zip_append_entry (h : t.Consistent) (s : Schema) (origin : Text) :
    (t.schemas ++ [s]).zip (t.origins ++ [origin]) = t.schemas.zip t.origins ++ [(s, origin)] :=
  List.zip_append h.origins_length.symm

/-! ### The index and the search for a name agree -/

theorem Consistent.indexOf?_registry (h : t.Consistent) (full : Text) :
    t.registry.indexOf? full = t.indexOf? full := by
  cases hr : t.registry.indexOf? full with
  | some i =>
    obtain ⟨e, he, hfull⟩ := exists_entry_of_indexOf? hr
    refine ((h.indexOf?_iff full i).mpr ⟨e.schema, ?_, hfull⟩).symm
    rw [← h.map_schema_entries, List.getElem?_map]
    exact congrArg (Option.map _) he
  | none =>
    refine (h.indexOf?_eq_none_iff.mpr fun s hs hfull => ?_).symm
    have hmem : full ∈ t.registry.names := by
      rw [h.names_registry]
      exact List.mem_map.mpr ⟨s, hs, hfull⟩
    obtain ⟨i, hi⟩ := exists_indexOf?_of_mem hmem
    rw [hi] at hr
    cases hr

theorem Consistent.contains_registry (h : t.Consistent) (full : Text) :
    t.registry.contains full = (t.indexOf? full).isSome := by
  rw [← h.indexOf?_registry, Registry.indexOf?, contains, Bool.eq_iff_iff, List.isSome_idxOf?]
  simp

theorem Consistent.find?_registry (h : t.Consistent) (full : Text) :
    t.registry.find? full = t.find? full := by
  rw [Registry.find?, Registry.entry?, h.indexOf?_registry, find?]
  cases hi : t.indexOf? full with
  | none => rfl
  | some i =>
    obtain ⟨s, hs, -⟩ := (h.indexOf?_iff full i).mp hi
    have he : t.registry.entries[i]? = some ⟨s, t.origins.getD i []⟩ := h.entries_getElem? hs
    simp only [Option.bind_some, he, hs, Option.map_some]

/-! ### One operation -/

/-- Registering adds one entry at the end and one place to the index, or changes nothing. -/
theorem register_cases (t : Table) (s : Schema) (origin : Text) :
    (∃ d, t.register s origin = (some d, t)) ∨
      s.isNamed = true ∧ isLegalName s.core.ownName.1 s.core.ownName.2 = true ∧
        t.indexOf? s.full = none ∧
        t.register s origin =
          (none, { t with index := t.index.insertIfNew s.full t.schemas.length
                          schemas := t.schemas ++ [s]
                          origins := t.origins ++ [originOf t.file origin] }) := by
  unfold register
  dsimp only
  split
  · exact .inl ⟨_, rfl⟩
  · next hnamed =>
    split
    · exact .inl ⟨_, rfl⟩
    · next hlegal =>
      split
      · exact .inl ⟨_, rfl⟩
      · next hnew => exact .inr ⟨by simpa using hnamed, by simpa using hlegal, hnew, rfl⟩

theorem Consistent.register (h : t.Consistent) (s : Schema) (origin : Text) :
    (t.register s origin).2.Consistent := by
  obtain ⟨d, heq⟩ | ⟨hnamed, hlegal, hnew, heq⟩ := t.register_cases s origin
  · rw [heq]
    exact h
  · rw [heq]
    have hmem : s.full ∉ t.index := by
      rw [Std.HashMap.mem_iff_isSome_getElem?]
      simp [show t.index[s.full]? = none from hnew]
    have hplace : ∀ full, (t.index.insertIfNew s.full t.schemas.length)[full]? =
        if s.full = full then some t.schemas.length else t.indexOf? full := by
      intro full
      simp [Std.HashMap.getElem?_insertIfNew, hmem, indexOf?]
    refine ⟨?_, ?_, ?_, ?_, ?_⟩
    · simp [h.origins_length]
    · simp [Std.HashMap.size_insertIfNew, hmem, h.index_size]
    · intro full i
      have hget : ∀ s', (t.schemas ++ [s])[i]? = some s' ↔
          t.schemas[i]? = some s' ∨ i = t.schemas.length ∧ s = s' := by
        grind
      have hother := h.indexOf?_eq_none_iff.mp hnew
      simp only [indexOf?, hplace, hget]
      split
      · next hfull =>
        subst hfull
        constructor
        · intro hi
          exact ⟨s, .inr ⟨by simpa using hi.symm, rfl⟩, rfl⟩
        · rintro ⟨s', hs' | ⟨rfl, rfl⟩, hfull⟩
          · exact absurd hfull (hother s' (List.mem_of_getElem? hs'))
          · rfl
      · next hfull =>
        rw [show t.index[full]? = t.indexOf? full from rfl, h.indexOf?_iff]
        constructor
        · rintro ⟨s', hs', hs⟩
          exact ⟨s', .inl hs', hs⟩
        · rintro ⟨s', hs' | ⟨-, rfl⟩, hs⟩
          · exact ⟨s', hs', hs⟩
          · exact absurd hs hfull
    · simpa [or_imp, forall_and] using ⟨h.named, hnamed⟩
    · simpa [or_imp, forall_and] using ⟨h.legal, hlegal⟩

theorem Consistent.bindAll (h : t.Consistent) : t.bindAll.Consistent := by
  refine ⟨by simp [Table.bindAll, h.origins_length], by simp [Table.bindAll, h.index_size], ?_, ?_,
    ?_⟩
  · intro full i
    change t.indexOf? full = some i ↔ _
    rw [h.indexOf?_iff]
    simp only [Table.bindAll, List.getElem?_map, Option.map_eq_some_iff]
    constructor
    · rintro ⟨s, hs, hfull⟩
      exact ⟨_, ⟨s, hs, rfl⟩, by rw [Schema.full_bindAll, hfull]⟩
    · rintro ⟨_, ⟨s, hs, rfl⟩, hfull⟩
      exact ⟨s, hs, by rw [← hfull, Schema.full_bindAll]⟩
  · intro s hs
    obtain ⟨s₀, hs₀, rfl⟩ := List.mem_map.mp hs
    rw [Schema.bindAll, Schema.isNamed_bind]
    exact h.named s₀ hs₀
  · intro s hs
    obtain ⟨s₀, hs₀, rfl⟩ := List.mem_map.mp hs
    rw [Schema.bindAll, Schema.ownName_core_bind]
    exact h.legal s₀ hs₀

/-- Every operation keeps the containers fit. -/
theorem Consistent.perform (h : t.Consistent) (op : Operation) : (t.perform op).2.Consistent := by
  cases op with
  | register s origin => exact h.register s origin
  | resolveAll messages main => exact h.bindAll
  | release => exact consistent_empty t.file

/-! ### The table represents the registry -/

theorem Consistent.register_registry (h : t.Consistent) (s : Schema) (origin : Text) :
    t.registry.perform (.register s origin) =
      (.registered (t.register s origin).1, (t.register s origin).2.registry) := by
  have hentry : t.registry.entry? s.full =
      (t.indexOf? s.full).bind fun i => t.entries[i]? := by
    rw [Registry.entry?, h.indexOf?_registry]
    rfl
  have hfile : (if origin.isEmpty then t.registry.file else origin) = originOf t.file origin := rfl
  simp only [Registry.perform, Registry.register, Registry.insert, Table.register, hfile, hentry]
  cases hnamed : s.isNamed with
  | false => rfl
  | true =>
    cases hlegal : isLegalName s.core.ownName.1 s.core.ownName.2 with
    | false => rfl
    | true =>
      cases hi : t.indexOf? s.full with
      | some i =>
        obtain ⟨s', hs', -⟩ := (h.indexOf?_iff s.full i).mp hi
        rw [indexOf?] at hi
        simp only [hi, Option.bind_some, h.entries_getElem? hs']
        rfl
      | none =>
        rw [indexOf?] at hi
        simp [hi, registry, entries, h.zip_append_entry]

theorem Consistent.resolveAll_registry (h : t.Consistent) (messages : List Message)
    (main : Option Schema) :
    t.registry.resolveAll messages main =
      { registry := t.bindAll.registry
        messages := messages.map (Message.bindAll t.indexOf?)
        main := main.map (Schema.bindAll t.indexOf?)
        failure := t.failure? messages main } := by
  have hindex : t.registry.indexOf? = t.indexOf? := funext h.indexOf?_registry
  have hregistry : t.bindAll.registry =
      { t.registry with
        entries := t.entries.map fun e => { e with schema := e.schema.bindAll t.indexOf? } } := by
    simp [registry, entries, Table.bindAll, List.zip_map_left]
  have hmissing : ∀ full, (!t.registry.contains full) = (t.indexOf? full).isNone := by
    intro full
    simp [h.contains_registry]
  simp only [Registry.resolveAll, hindex, failure?, hmissing, hregistry]
  rfl

/-- An operation on the table does what it does on the registry that the table represents. -/
theorem Consistent.perform_registry (h : t.Consistent) (op : Operation) :
    t.registry.perform op = ((t.perform op).1, (t.perform op).2.registry) := by
  cases op with
  | register s origin => exact h.register_registry s origin
  | resolveAll messages main =>
    simp only [Registry.perform, h.resolveAll_registry]
    rfl
  | release => rfl

/-! ### Sequences of operations -/

theorem Consistent.run (h : t.Consistent) (ops : List Operation) :
    (Operation.run Table.perform t ops).2.Consistent := by
  induction ops generalizing t with
  | nil => exact h
  | cons op ops ih => exact ih (h.perform op)

/-- Operations on the table lead to the table of the registry to which they lead. -/
theorem Consistent.run_registry (h : t.Consistent) (ops : List Operation) :
    Operation.run Registry.perform t.registry ops =
      ((Operation.run Table.perform t ops).1, (Operation.run Table.perform t ops).2.registry) := by
  induction ops generalizing t with
  | nil => rfl
  | cons op ops ih =>
    rw [Operation.run, h.perform_registry op]
    simp only [ih (h.perform op), Operation.run]

theorem file_perform (t : Table) (op : Operation) : (t.perform op).2.file = t.file := by
  cases op with
  | register s origin =>
    rw [perform]
    obtain ⟨d, heq⟩ | ⟨-, -, -, heq⟩ := t.register_cases s origin <;> rw [heq]
  | resolveAll messages main => rfl
  | release => rfl

theorem file_run (t : Table) (ops : List Operation) :
    (Operation.run Table.perform t ops).2.file = t.file := by
  induction ops generalizing t with
  | nil => rfl
  | cons op ops ih => exact (ih _).trans (t.file_perform op)

theorem unbound_entries_bindAll (t : Table) :
    t.bindAll.entries.map Entry.unbound = t.entries.map Entry.unbound := by
  simp [entries, Table.bindAll, List.zip_map_left, Entry.unbound]

/-- The entries are the accepted registrations, apart from bindings. -/
theorem Consistent.unbound_entries_run (h : t.Consistent) (ops : List Operation) {es : List Entry}
    (hes : t.entries.map Entry.unbound = es.map Entry.unbound) :
    (Operation.run Table.perform t ops).2.entries.map Entry.unbound =
      (registrations t.file es (ops.zip (Operation.run Table.perform t ops).1)).map
        Entry.unbound := by
  induction ops generalizing t es with
  | nil => exact hes
  | cons op ops ih =>
    have hnext := h.perform op
    cases op with
    | register s origin =>
      rw [Operation.run, Table.perform]
      obtain ⟨d, heq⟩ | ⟨-, -, -, heq⟩ := t.register_cases s origin
      · rw [heq]
        exact ih h hes
      · rw [Table.perform, heq] at hnext
        rw [heq]
        refine ih hnext ?_
        rw [List.map_append, ← hes]
        simp [entries, h.zip_append_entry]
    | resolveAll messages main => exact ih hnext (t.unbound_entries_bindAll.trans hes)
    | release => exact ih hnext rfl

end Consistent

/-- The table differs from another one in nothing but bindings. -/
structure SameButBindings (t t' : Table) : Prop where
  file : t'.file = t.file
  origins : t'.origins = t.origins
  index : t'.index = t.index
  schemas : t'.schemas.map Schema.unbound = t.schemas.map Schema.unbound

/-- What holds of the table to which operations on an empty registry lead, given their outcomes. -/
structure Upholds (file : Text) (ops : List Operation) (outcomes : List Outcome) (t : Table) :
    Prop where
  consistent : t.Consistent
  /-- The operations have the same outcomes on a registry without containers, and lead there to the
  one that the table represents. -/
  represents : Operation.run Registry.perform { file := file } ops = (outcomes, t.registry)
  performs : ∀ op, t.registry.perform op = ((t.perform op).1, (t.perform op).2.registry)
  distinct : t.registry.names.Nodup
  found : ∀ full, t.registry.indexOf? full = t.indexOf? full ∧
    t.registry.find? full = t.find? full ∧ t.registry.contains full = (t.indexOf? full).isSome
  placed : ∀ i s, t.schemas[i]? = some s →
    t.registry.names[i]? = some s.full ∧ t.indexOf? s.full = some i ∧ t.find? s.full = some s
  ordered : t.entries.map Entry.unbound =
    (registrations file [] (ops.zip outcomes)).map Entry.unbound
  refused : ∀ s origin d, (t.perform (.register s origin)).1 = .registered (some d) →
    (t.perform (.register s origin)).2 = t
  resolved : ∀ messages main, t.SameButBindings (t.perform (.resolveAll messages main)).2
  released : ∃ es, t.perform .release = (.released es, { file := file }) ∧
    es.map (·.schema) = t.schemas ∧ es.map (·.origin) = t.origins

section Consistent

variable {t : Table}

theorem Consistent.find?_full (h : t.Consistent) {i : Nat} {s : Schema}
    (hs : t.schemas[i]? = some s) : t.indexOf? s.full = some i ∧ t.find? s.full = some s := by
  have hi := (h.indexOf?_iff s.full i).mpr ⟨s, hs, rfl⟩
  exact ⟨hi, by rw [find?, hi]; exact hs⟩

theorem Consistent.nodup_names (h : t.Consistent) : t.registry.names.Nodup := by
  rw [h.names_registry, List.Nodup, List.pairwise_iff_getElem]
  intro i j hi hj hij heq
  rw [List.length_map] at hi hj
  rw [List.getElem_map, List.getElem_map] at heq
  have hplace := (h.find?_full (List.getElem?_eq_getElem hi)).1
  rw [heq, (h.find?_full (List.getElem?_eq_getElem hj)).1, Option.some.injEq] at hplace
  omega

theorem perform_register_refused {s : Schema} {origin : Text} {d : Diagnostic}
    (h : (t.perform (.register s origin)).1 = .registered (some d)) :
    (t.perform (.register s origin)).2 = t := by
  rw [perform] at h ⊢
  obtain ⟨d', heq⟩ | ⟨-, -, -, heq⟩ := t.register_cases s origin
  · rw [heq]
  · rw [heq] at h
    cases h

theorem sameButBindings_resolveAll (messages : List Message) (main : Option Schema) :
    t.SameButBindings (t.perform (.resolveAll messages main)).2 :=
  ⟨rfl, rfl, rfl, by simp [perform, Table.bindAll]⟩

end Consistent

/-- After every sequence of operations the containers fit together and represent the registry, the
entries keep the order of registration, and every further operation does no more than it says. -/
theorem upholds_run (file : Text) (ops : List Operation) :
    Upholds file ops (Operation.run perform { file := file } ops).1
      (Operation.run perform { file := file } ops).2 := by
  have hempty := consistent_empty file
  have h := hempty.run ops
  have hfile := file_run { file := file } ops
  refine
    { consistent := h
      represents := hempty.run_registry ops
      performs := h.perform_registry
      distinct := h.nodup_names
      found := fun full =>
        ⟨h.indexOf?_registry full, h.find?_registry full, h.contains_registry full⟩
      placed := fun i s hs => ⟨?_, h.find?_full hs⟩
      ordered := hempty.unbound_entries_run ops rfl
      refused := fun s origin d => perform_register_refused
      resolved := sameButBindings_resolveAll
      released := ⟨_, ?_, h.map_schema_entries, h.map_origin_entries⟩ }
  · rw [h.names_registry, List.getElem?_map, hs]
    rfl
  · rw [perform, release, hfile]

end Table

end Registry

end AvroIdl
