import AvroIdl.Proofs.Depiction
import AvroIdl.Proofs.RoundTrip
import AvroIdl.Proofs.UnitInvariants
import Mathlib.Data.Finset.Card

/-!
# Every type is defined once and before it is named

The writer keeps the names of the types whose definitions have started. `Orderly` follows the
occurrences in a document with these names: a definition adds a new one, and a name is one of them.
Each reference that is followed adds a registered name that was not there, so the number of those
that are missing bounds the references that are followed one inside the other, and a writer that may
follow that many never stops early.
-/
namespace AvroIdl

theorem Registry.Binds.mem_names {r : Registry} {ref : Reference} (h : r.Binds ref) :
    ref.full ∈ r.names := by
  obtain ⟨i, e, -, he, hfull⟩ := h
  exact List.mem_map.mpr ⟨e, List.mem_of_getElem? he, hfull⟩

theorem Schema.full_of_head? {t : Schema} {h : Head} (ht : t.head? = some h) :
    t.full = h.full ∧ t.core = t := by
  cases t <;> cases ht <;> exact ⟨rfl, rfl⟩

/-- Where named types stand in others only by reference, the definitions are the registered ones. -/
theorem Registry.WellShaped.coherent {r : Registry} {messages : List Message}
    (hw : r.WellShaped messages) : r.Coherent messages := by
  intro s hs depth t ho h ht
  simp only [Registry.unitTypes, Option.toList_none, List.append_nil, List.mem_append,
    List.mem_map, List.mem_flatMap] at hs
  rcases hs with ⟨e, he, rfl⟩ | ⟨m, hm, hs⟩
  · have hfind := hw.lawful.find?_of_mem he
    cases depth with
    | zero =>
      obtain rfl := Schema.occurs_zero_iff.mp ho
      obtain ⟨hfull, hcore⟩ := Schema.full_of_head? ht
      exact ⟨e.schema, hfull ▸ hfind, hcore⟩
    | succ depth =>
      have hdefinition := Schema.definition_of_isNamed (hw.types e he).self (hw.lawful.named e he)
      obtain ⟨k, precision, scale, size, n, hsame, rfl⟩ :=
        hdefinition.eq_logical_of_occurs (hw.types e he) ho ht
      rw [hsame] at hfind
      exact ⟨_, hfind, rfl⟩
  · obtain ⟨hp, hi⟩ := (hw.sent m hm).types s hs
    rw [Schema.head?_eq_none_of_inner ho hp hi] at ht
    cases ht

namespace Document

/-- From the names on the left, the occurrences lead to those on the right. -/
inductive Orderly : List Text → List Occurrence → List Text → Prop
  | nil {w : List Text} : Orderly w [] w
  | definition {w w' : List Text} {full : Text} {marks : List Occurrence} (new : full ∉ w)
      (rest : Orderly (full :: w) marks w') : Orderly w (.definition full :: marks) w'
  | name {w w' : List Text} {full : Text} {marks : List Occurrence} (known : full ∈ w)
      (rest : Orderly w marks w') : Orderly w (.name full :: marks) w'

/-- No type is defined twice, and none is named before its definition has started. -/
structure DefinedFirst (marks : List Occurrence) : Prop where
  once : (definitions marks).Nodup
  before : ∀ front full rest, marks = front ++ .name full :: rest → .definition full ∈ front

theorem mem_definitions_iff {marks : List Occurrence} {full : Text} :
    full ∈ definitions marks ↔ .definition full ∈ marks := by
  rw [definitions, List.mem_filterMap]
  constructor
  · rintro ⟨mark, hmark, heq⟩
    cases mark with
    | definition other =>
      cases heq
      exact hmark
    | name other => cases heq
  · exact fun h => ⟨_, h, rfl⟩

section Orderly

variable {w w' w'' : List Text} {marks marks' : List Occurrence}

theorem Orderly.append (h : Orderly w marks w') (h' : Orderly w' marks' w'') :
    Orderly w (marks ++ marks') w'' := by
  induction h with
  | nil => exact h'
  | definition new rest ih => exact .definition new (ih h')
  | name known rest ih => exact .name known (ih h')

theorem Orderly.mem_iff (h : Orderly w marks w') {full : Text} :
    full ∈ w' ↔ .definition full ∈ marks ∨ full ∈ w := by
  induction h with
  | nil => simp
  | definition new rest ih =>
    rw [ih, List.mem_cons, List.mem_cons, Occurrence.definition.injEq]
    tauto
  | name known rest ih => simp [ih]

theorem Orderly.subset (h : Orderly w marks w') : w ⊆ w' :=
  fun _ hfull => h.mem_iff.mpr (.inr hfull)

theorem Orderly.nodup (h : Orderly w marks w') :
    (definitions marks).Nodup ∧ ∀ full, .definition full ∈ marks → full ∉ w := by
  induction h with
  | nil => exact ⟨List.nodup_nil, by simp⟩
  | @definition w w' full marks new rest ih =>
    obtain ⟨hnodup, hnew⟩ := ih
    refine ⟨List.nodup_cons.mpr ⟨fun hmem => ?_, hnodup⟩, fun other hother hin => ?_⟩
    · exact hnew full (mem_definitions_iff.mp hmem) List.mem_cons_self
    · rcases List.mem_cons.mp hother with heq | hother
      · cases heq
        exact new hin
      · exact hnew other hother (List.mem_cons_of_mem _ hin)
  | name known rest ih =>
    refine ⟨ih.1, fun other hother => ih.2 other ?_⟩
    rcases List.mem_cons.mp hother with heq | hother
    · cases heq
    · exact hother

theorem Orderly.known_of_name (h : Orderly w marks w') {front rest : List Occurrence}
    {full : Text} (heq : marks = front ++ .name full :: rest) :
    .definition full ∈ front ∨ full ∈ w := by
  induction h generalizing front with
  | nil => simp at heq
  | definition new more ih =>
    cases front with
    | nil => cases heq
    | cons mark front =>
      obtain ⟨rfl, htail⟩ := List.cons.inj heq
      rcases ih htail with hmem | hmem
      · exact .inl (List.mem_cons_of_mem _ hmem)
      · rcases List.mem_cons.mp hmem with rfl | hmem
        · exact .inl List.mem_cons_self
        · exact .inr hmem
  | name known more ih =>
    cases front with
    | nil =>
      cases heq
      exact .inr known
    | cons mark front =>
      obtain ⟨rfl, htail⟩ := List.cons.inj heq
      exact (ih htail).imp_left (List.mem_cons_of_mem _)

theorem Orderly.definedFirst (h : Orderly [] marks w') : DefinedFirst marks :=
  ⟨h.nodup.1, fun _ _ _ heq => (h.known_of_name heq).resolve_right List.not_mem_nil⟩

theorem Orderly.mem_of_mark (h : Orderly w marks w') {mark : Occurrence} (hmark : mark ∈ marks) :
    mark.full ∈ w' := by
  cases mark with
  | definition full => exact h.mem_iff.mpr (.inl hmark)
  | name full =>
    obtain ⟨front, rest, rfl⟩ := List.append_of_mem hmark
    exact h.mem_iff.mpr ((h.known_of_name rfl).imp_left (List.mem_append_left _))

theorem Orderly.eq_of_names (h : Orderly w marks w')
    (hnames : ∀ full, .definition full ∉ marks) : w' = w := by
  induction h with
  | nil => rfl
  | definition new rest ih => exact absurd List.mem_cons_self (hnames _)
  | name known rest ih => exact ih fun full hmem => hnames full (List.mem_cons_of_mem _ hmem)

/-- In a document that starts with nothing, what occurs is defined. -/
theorem Orderly.definition_of_mem (h : Orderly [] marks w') {mark : Occurrence}
    (hmark : mark ∈ marks) : .definition mark.full ∈ marks := by
  cases mark with
  | definition full => exact hmark
  | name full =>
    obtain ⟨front, rest, rfl⟩ := List.append_of_mem hmark
    exact List.mem_append_left _ (h.definedFirst.before front full rest rfl)

end Orderly

/-- How many registered types have no definition yet. -/
def pending (r : Registry) (w : List Text) : Nat := (r.names.toFinset \ w.toFinset).card

section Pending

variable {r : Registry} {w w' : List Text} {full : Text}

theorem pending_le_size : pending r w ≤ r.size :=
  calc pending r w ≤ r.names.toFinset.card := Finset.card_le_card Finset.sdiff_subset
    _ ≤ r.names.length := List.toFinset_card_le _
    _ = r.size := by simp [Registry.names, Registry.size]

theorem pending_anti (h : w ⊆ w') : pending r w' ≤ pending r w := by
  refine Finset.card_le_card (Finset.sdiff_subset_sdiff subset_rfl fun a ha => ?_)
  exact List.mem_toFinset.mpr (h (List.mem_toFinset.mp ha))

theorem pending_cons_lt (hname : full ∈ r.names) (hnew : full ∉ w) :
    pending r (full :: w) < pending r w := by
  have hmem : full ∈ r.names.toFinset \ w.toFinset := by simp [hname, hnew]
  refine Finset.card_lt_card (Finset.ssubset_iff_of_subset ?_ |>.mpr ⟨full, hmem, by simp⟩)
  exact Finset.sdiff_subset_sdiff subset_rfl (by simp)

end Pending

/-- What is written shows the schema, its occurrences are in order, and another writer would write
the same. -/
def Traces (r : Registry) (write other : Writer Json) (enclosing : Option Text) (s : Schema)
    (w : List Text) : Prop :=
  ∃ marks, Depicts r enclosing s (write.run w).1 marks ∧ Orderly w marks (write.run w).2 ∧
    other.run w = write.run w

section Lists

variable {α : Type} {r : Registry} {k : Nat}

theorem mapM_cons_run (write : α → Writer Json) (wrap : α → Json → Json) (x : α) (xs : List α)
    (w : List Text) :
    ((x :: xs).mapM fun x => do return wrap x (← write x)).run w =
      (wrap x ((write x).run w).1 ::
          ((xs.mapM fun x => do return wrap x (← write x)).run ((write x).run w).2).1,
        ((xs.mapM fun x => do return wrap x (← write x)).run ((write x).run w).2).2) := by
  rw [List.mapM_cons]
  rfl

/-- What is written for a list is the list of what is written for each, one after the other. -/
theorem mapM_traces {write other : α → Writer Json} {shows : α → Json → List Occurrence → Prop}
    {xs : List α}
    (h : ∀ x ∈ xs, ∀ w, pending r w ≤ k → ∃ marks, shows x ((write x).run w).1 marks ∧
      Orderly w marks ((write x).run w).2 ∧ (other x).run w = (write x).run w)
    (wrap : α → Json → Json) {w : List Text} (hw : pending r w ≤ k) :
    ∃ rows : List (Row α), rows.map (·.source) = xs ∧
      ((xs.mapM fun x => do return wrap x (← write x)).run w).1 =
        rows.map (fun x => wrap x.source x.json) ∧
      (∀ x ∈ rows, shows x.source x.json x.marks) ∧
      Orderly w (rows.flatMap (·.marks)) ((xs.mapM fun x => do return wrap x (← write x)).run w).2 ∧
      (xs.mapM fun x => do return wrap x (← other x)).run w =
        (xs.mapM fun x => do return wrap x (← write x)).run w := by
  induction xs generalizing w with
  | nil => exact ⟨[], rfl, rfl, by simp, .nil, rfl⟩
  | cons x xs ih =>
    obtain ⟨hx, hxs⟩ := List.forall_mem_cons.mp h
    obtain ⟨marks, hshows, horder, hsame⟩ := hx w hw
    obtain ⟨rows, rfl, hjson, hrows, horders, hsames⟩ :=
      ih hxs ((pending_anti horder.subset).trans hw)
    refine ⟨⟨x, ((write x).run w).1, marks⟩ :: rows, rfl, ?_, ?_, ?_, ?_⟩
    · rw [mapM_cons_run, hjson]
      rfl
    · exact List.forall_mem_cons.mpr ⟨hshows, hrows⟩
    · rw [mapM_cons_run]
      exact horder.append horders
    · rw [mapM_cons_run, mapM_cons_run, hsame, hsames]

end Lists

section Writing

variable {r : Registry} {k : Nat} {follow other : Reference → Option Text → Writer Json}

theorem once_run_known {h : Head} {w : List Text} (hknown : h.full ∈ w) (enclosing : Option Text)
    (definition : Writer Members) :
    (once h enclosing definition).run w =
      (.string (relativeName h.name h.space enclosing), w) := by
  have hcontains : w.contains h.full = true := by simpa using hknown
  change (if w.contains h.full = true then
    (pure (Json.string (relativeName h.name h.space enclosing)) : Writer Json) else (do
      modify (h.full :: ·)
      return .object (← definition))).run w = _
  rw [hcontains]
  rfl

/-- A definition that has no other inside it. -/
theorem traces_once {s : Schema} {h : Head} (hhead : s.definedHead? = some h)
    {enclosing : Option Text} {ms : Members}
    (hshows : Depicts r enclosing s (.object ms) [.definition h.full]) (w : List Text) :
    Traces r (once h enclosing (return ms)) (once h enclosing (return ms)) enclosing s w := by
  by_cases hknown : h.full ∈ w
  · refine ⟨[.name h.full], ?_, ?_, rfl⟩
    · rw [once_run_known hknown]
      exact .again hhead
    · rw [once_run_known hknown]
      exact .name hknown .nil
  · refine ⟨[.definition h.full], ?_, ?_, rfl⟩
    · rw [once_run hknown]
      exact hshows
    · rw [once_run hknown]
      exact .definition hknown .nil

theorem traces_record {h : Head} (isError : Bool) {fields : List Field} {enclosing : Option Text}
    (hfields : ∀ f ∈ fields, ∀ w, pending r w ≤ k →
      Traces r (writeWith follow (fieldNamespace h enclosing) f.type)
        (writeWith other (fieldNamespace h enclosing) f.type) (fieldNamespace h enclosing) f.type w)
    {w : List Text} (hnew : h.full ∉ w) (hw : pending r (h.full :: w) ≤ k) :
    Traces r (writeWith follow enclosing (.record h isError fields))
      (writeWith other enclosing (.record h isError fields)) enclosing
      (.record h isError fields) w := by
  obtain ⟨rows, rfl, hjson, hrows, horder, hsame⟩ :=
    mapM_traces hfields (fun f j => .object (fieldMembers f j)) hw
  refine ⟨.definition h.full :: rows.flatMap (·.marks), ?_, ?_, ?_⟩
  · rw [writeWith, once_run hnew, writeFields_eq_mapM]
    have hshows : Depicts r enclosing (.record h isError (rows.map (·.source))) _ _ :=
      .record isError hrows
    rw [← hjson] at hshows
    exact hshows
  · rw [writeWith, once_run hnew, writeFields_eq_mapM]
    exact .definition hnew horder
  · have hsame' : ((rows.map (·.source)).mapM
        (writeField (writeWith other (fieldNamespace h enclosing)))).run (h.full :: w) =
        ((rows.map (·.source)).mapM
          (writeField (writeWith follow (fieldNamespace h enclosing)))).run (h.full :: w) := hsame
    rw [writeWith, writeWith, once_run hnew, once_run hnew, writeFields_eq_mapM,
      writeFields_eq_mapM]
    simp only [StateT.run_bind, hsame']

theorem traces_container {word key : Text} {shape : Shape}
    (hshape : containerOf? word = some (shape, key)) {write write' : Writer Json}
    {enclosing : Option Text} {s : Schema} {w : List Text}
    (h : Traces r write write' enclosing s w) (rest : List Schema) (n : Note) :
    Traces r
      (do
        let part ← write
        return .object ((member "type" (.string word) ++ member key part).merge n.properties))
      (do
        let part ← write'
        return .object ((member "type" (.string word) ++ member key part).merge n.properties))
      enclosing (.compound shape (s :: rest) n) w := by
  obtain ⟨marks, hshows, horder, hsame⟩ := h
  refine ⟨marks, .container hshape hshows rest n, horder, ?_⟩
  simp only [StateT.run_bind, hsame]

theorem traces_union {enclosing : Option Text} {parts : List Schema}
    (hparts : ∀ s ∈ parts, ∀ w, pending r w ≤ k →
      Traces r (writeWith follow enclosing s) (writeWith other enclosing s) enclosing s w)
    (isOptional : Bool) (n : Note) {w : List Text} (hw : pending r w ≤ k) :
    Traces r (writeWith follow enclosing (.compound (.union isOptional) parts n))
      (writeWith other enclosing (.compound (.union isOptional) parts n)) enclosing
      (.compound (.union isOptional) parts n) w := by
  obtain ⟨rows, rfl, hjson, hrows, horder, hsame⟩ := mapM_traces hparts (fun _ j => j) hw
  simp only [bind_pure] at hjson horder hsame
  refine ⟨rows.flatMap (·.marks), ?_, ?_, ?_⟩
  · rw [writeWith, writeParts_eq_mapM]
    have hshows : Depicts r enclosing (.compound (.union isOptional) (rows.map (·.source)) n) _ _ :=
      .union isOptional hrows n
    rw [← hjson] at hshows
    exact hshows
  · rw [writeWith, writeParts_eq_mapM]
    exact horder
  · rw [writeWith, writeWith, writeParts_eq_mapM, writeParts_eq_mapM]
    simp only [StateT.run_bind, hsame]

theorem traces_pure {enclosing : Option Text} {s : Schema} {j : Json}
    (h : Depicts r enclosing s j []) (w : List Text) : Traces r (pure j) (pure j) enclosing s w :=
  ⟨[], h, .nil, rfl⟩

theorem writeWith_hollow (follow : Reference → Option Text → Writer Json) (enclosing : Option Text)
    {shape : Shape} (h : ∀ o, shape ≠ .union o) (n : Note) :
    writeWith follow enclosing (.compound shape [] n) = pure .null := by
  cases shape with
  | union o => exact absurd rfl (h o)
  | _ =>
    rw [writeWith]
    simp

theorem writeWith_logical (follow : Reference → Option Text → Writer Json)
    (enclosing : Option Text) (k : LogicalKind) (precision scale : Nat) {base : Schema}
    (h : ∀ head size, base ≠ .fixed head size) (rest : List Schema) (n : Note) :
    writeWith follow enclosing (.compound (.logical k precision scale) (base :: rest) n) =
      pure (.object (((member "type" (.string base.kind.text) ++
        logicalMembers k precision scale).merge base.properties).merge n.properties)) := by
  rw [writeWith]
  exact h

/-- If references are written in order while few enough types are pending, so is every type. -/
theorem traces_with
    (hfollow : ∀ ref enclosing w, r.Binds ref → pending r w ≤ k →
      Traces r (follow ref enclosing) (other ref enclosing) enclosing (.reference ref) w)
    {s : Schema} (hs : s.Everywhere r.BindsAt) (enclosing : Option Text) {w : List Text}
    (hw : pending r w ≤ k) :
    Traces r (writeWith follow enclosing s) (writeWith other enclosing s) enclosing s w := by
  induction s using Schema.induct generalizing enclosing w with
  | primitive p n =>
    have hpure : ∀ follow, writeWith follow enclosing (.primitive p n) =
        pure (if n.properties.isEmpty then .string p.text
          else .object ((member "type" (.string p.text)).merge n.properties)) := by
      intro follow
      rw [writeWith]
      split <;> rfl
    rw [hpure, hpure]
    exact traces_pure (.primitive p n) w
  | reference ref =>
    rw [writeWith, writeWith]
    exact hfollow ref enclosing w hs.self hw
  | enumeration h symbols d =>
    rw [writeWith, writeWith]
    exact traces_once rfl (.enumeration h symbols d) w
  | fixed h size =>
    rw [writeWith, writeWith]
    exact traces_once rfl (.fixed h size) w
  | record h isError fields ih =>
    have hfields := (Schema.everywhere_record_iff.mp hs).2
    by_cases hknown : h.full ∈ w
    · refine ⟨[.name h.full], ?_, ?_, ?_⟩
      · rw [writeWith, once_run_known hknown]
        exact .again rfl
      · rw [writeWith, once_run_known hknown]
        exact .name hknown .nil
      · rw [writeWith, writeWith, once_run_known hknown, once_run_known hknown]
    · refine traces_record isError (fun f hf w hw => ih f hf (hfields f hf) _ hw) hknown ?_
      exact (pending_anti (List.subset_cons_self _ _)).trans hw
  | compound shape parts n ih =>
    have hparts := (Schema.everywhere_compound_iff.mp hs).2
    by_cases hshape : ∃ o, shape = .union o
    · obtain ⟨o, rfl⟩ := hshape
      exact traces_union (fun s hs w hw => ih s hs (hparts s hs) enclosing hw) o n hw
    · have hclosed : ∀ o, shape ≠ .union o := fun o ho => hshape ⟨o, ho⟩
      cases parts with
      | nil =>
        rw [writeWith_hollow _ _ hclosed, writeWith_hollow _ _ hclosed]
        exact traces_pure (.hollow hclosed n) w
      | cons part rest =>
        have hmem : part ∈ part :: rest := List.mem_cons_self
        have hpart := ih part hmem (hparts part hmem) enclosing hw
        cases shape with
        | union o => exact absurd rfl (hclosed o)
        | array =>
          rw [writeWith, writeWith]
          exact traces_container rfl hpart rest n
        | map =>
          rw [writeWith, writeWith]
          exact traces_container rfl hpart rest n
        | logical kind precision scale =>
          by_cases hfixed : ∃ h size, part = .fixed h size
          · obtain ⟨h, size, rfl⟩ := hfixed
            rw [writeWith, writeWith]
            exact traces_once rfl (.meaning kind precision scale h size rest n) w
          · have hplain : ∀ h size, part ≠ .fixed h size := fun h size he => hfixed ⟨h, size, he⟩
            rw [writeWith_logical _ _ _ _ _ hplain, writeWith_logical _ _ _ _ _ hplain]
            exact traces_pure (.logical kind precision scale hplain rest n) w

/-- The definition of a named type; inside it, its own name is known. -/
theorem traces_definition
    (hfollow : ∀ ref enclosing w, r.Binds ref → pending r w ≤ k →
      Traces r (follow ref enclosing) (other ref enclosing) enclosing (.reference ref) w)
    {s : Schema} (hs : s.Everywhere r.BindsAt) (hnamed : s.isNamed = true)
    (enclosing : Option Text) {w : List Text} (hnew : s.full ∉ w)
    (hw : pending r (s.full :: w) ≤ k) :
    Traces r (writeWith follow enclosing s) (writeWith other enclosing s) enclosing s w := by
  cases s with
  | record h isError fields =>
    have hfields := (Schema.everywhere_record_iff.mp hs).2
    exact traces_record isError (fun f hf w hw => traces_with hfollow (hfields f hf) _ hw) hnew hw
  | enumeration h symbols d =>
    rw [writeWith, writeWith]
    exact traces_once rfl (.enumeration h symbols d) w
  | fixed h size =>
    rw [writeWith, writeWith]
    exact traces_once rfl (.fixed h size) w
  | compound shape parts n =>
    obtain ⟨kind, precision, scale, h, size, rest, rfl, rfl⟩ := exists_fixed_of_isNamed hnamed
    rw [writeWith, writeWith]
    exact traces_once rfl (.meaning kind precision scale h size rest n) w
  | primitive p n => cases hnamed
  | reference ref => cases hnamed

theorem writeReference_of_mem {ref : Reference} {w : List Text} (hb : r.Binds ref)
    (hknown : ref.full ∈ w) (steps : Nat) (enclosing : Option Text) :
    (writeReference r steps ref enclosing).run w =
      (.string (relativeName ref.name ref.space enclosing), w) := by
  cases steps with
  | zero => rfl
  | succ steps =>
    refine writeReference_of_known (fun s hs => ?_) steps enclosing
    obtain ⟨e, he, rfl, hfull⟩ := Registry.exists_entry_of_lookup (.inr hb) hs
    exact hfull ▸ hknown

theorem traces_name {ref : Reference} {w : List Text} (hb : r.Binds ref) (hknown : ref.full ∈ w)
    (steps more : Nat) (enclosing : Option Text) :
    Traces r (writeReference r steps ref enclosing) (writeReference r more ref enclosing) enclosing
      (.reference ref) w := by
  unfold Traces
  rw [writeReference_of_mem hb hknown, writeReference_of_mem hb hknown]
  exact ⟨[.name ref.full], .name ref, .name hknown .nil, rfl⟩

/-- With as many steps as there are types to be defined, references are written in order, and more
steps change nothing. -/
theorem traces_reference (hr : r.Lawful) (hentries : ∀ e ∈ r.entries, e.schema.Everywhere r.BindsAt)
    {steps more : Nat} {ref : Reference} {enclosing : Option Text} {w : List Text}
    (hb : r.Binds ref) (hsteps : pending r w ≤ steps) (hmore : pending r w ≤ more) :
    Traces r (writeReference r steps ref enclosing) (writeReference r more ref enclosing) enclosing
      (.reference ref) w := by
  induction steps generalizing more ref enclosing w with
  | zero =>
    by_cases hknown : ref.full ∈ w
    · exact traces_name hb hknown 0 more enclosing
    · have hless := pending_cons_lt hb.mem_names hknown
      omega
  | succ steps ih =>
    by_cases hknown : ref.full ∈ w
    · exact traces_name hb hknown (steps + 1) more enclosing
    · -- one step goes into the definition, where one type less is pending
      have hless := pending_cons_lt hb.mem_names hknown
      obtain ⟨i, e, hi, he, hfull⟩ := hb
      have hmem := List.mem_of_getElem? he
      have hlookup : r.lookup ref = some e.schema := by simp [Registry.lookup, hi, he]
      obtain ⟨left, rfl⟩ : ∃ left, more = left + 1 := ⟨more - 1, by omega⟩
      have hfollow : ∀ ref enclosing w', r.Binds ref →
          pending r w' ≤ pending r (e.schema.full :: w) →
          Traces r (writeReference r steps ref enclosing) (writeReference r left ref enclosing)
            enclosing (.reference ref) w' := by
        intro ref enclosing w' hb hw'
        rw [hfull] at hw'
        exact ih hb (by omega) (by omega)
      rw [← hfull] at hknown
      obtain ⟨marks, hshows, horder, hsame⟩ :=
        traces_definition hfollow (hentries e hmem) (hr.named e hmem) enclosing hknown le_rfl
      unfold Traces
      rw [writeReference_of_new hlookup hknown, writeReference_of_new hlookup hknown]
      exact ⟨marks, .target (hfull ▸ hr.find?_of_mem hmem) hshows, horder, hsame⟩

end Writing

/-- The rows are definitions of registered types, and every type is defined once in them. -/
structure DefinesAll (r : Registry) (enclosing : Option Text) (rows : List (Row Schema)) :
    Prop where
  shown : ∀ x ∈ rows, (∃ e ∈ r.entries, e.schema = x.source) ∧
    Depicts r enclosing x.source x.json x.marks
  first : DefinedFirst (rows.flatMap (·.marks))
  all : (definitions (rows.flatMap (·.marks))).Perm r.names

/-- The value shows the schema, and the types that occur in it are named and not defined. -/
def Cites (r : Registry) (enclosing : Option Text) (s : Schema) (j : Json) : Prop :=
  ∃ marks, Depicts r enclosing s j marks ∧ ∀ mark ∈ marks, ∃ full ∈ r.names, mark = .name full

def CitesField (r : Registry) (enclosing : Option Text) (f : Field) (j : Json) : Prop :=
  ∃ type, j = .object (fieldMembers f type) ∧ Cites r enclosing f.type type

/-- The members of a message name the types of its parameters, its response and its errors. -/
structure CitesMessage (r : Registry) (enclosing : Option Text) (m : Message) (ms : Members) :
    Prop where
  request : ∃ js, ms.get? "request" = some (.array js) ∧
    List.Forall₂ (CitesField r enclosing) m.request js
  response : ∃ j, ms.get? "response" = some j ∧ Cites r enclosing m.response j
  errors : ∃ js, ms.get? "errors" = (if js.isEmpty then none else some (.array js)) ∧
    List.Forall₂ (Cites r enclosing) (m.errors.getD []) js

section Members

variable (m : Message) (request errors : List Json) (response : Json)

theorem get?_request :
    (messageMembers m request response errors).get? "request" = some (.array request) := by
  unfold messageMembers
  cases m.isOneWay <;> cases errors.isEmpty <;> simp +decide [Members.get?_put]

theorem get?_response :
    (messageMembers m request response errors).get? "response" = some response := by
  unfold messageMembers
  cases m.isOneWay <;> cases errors.isEmpty <;> simp +decide [Members.get?_put]

theorem get?_errors (h : errors = [] → ("errors" : Text) ∉ m.properties.keys) :
    (messageMembers m request response errors).get? "errors" =
      if errors.isEmpty then none else some (.array errors) := by
  unfold messageMembers
  cases errors with
  | nil =>
    have hnone := Members.get?_eq_none_iff.mpr (h rfl)
    cases m.isOneWay <;>
      simp +decide [Members.get?_put, Members.get?_merge, docMember, hnone]
  | cons j js => cases m.isOneWay <;> simp +decide [Members.get?_put]

end Members

theorem writeMessage_run (r : Registry) (enclosing : Option Text) (m : Message) (w : List Text) :
    let request := (m.request.mapM (writeField fun s => writeSchema r s enclosing)).run w
    let response := (writeSchema r m.response enclosing).run request.2
    let errors := ((m.errors.getD []).mapM fun s => writeSchema r s enclosing).run response.2
    (writeMessage r enclosing m).run w =
      (.object (messageMembers m request.1 response.1 errors.1), errors.2) := by
  rw [writeMessage, writeParameters_eq_mapM, writeAll_eq_mapM]
  rfl

theorem mapM_of_same {α : Type} {write : α → Writer Json} {shows : α → Json → Prop} {w : List Text}
    {xs : List α} (h : ∀ x ∈ xs, shows x ((write x).run w).1 ∧ ((write x).run w).2 = w) :
    List.Forall₂ shows xs ((xs.mapM write).run w).1 ∧ ((xs.mapM write).run w).2 = w := by
  induction xs with
  | nil => exact ⟨.nil, rfl⟩
  | cons x xs ih =>
    obtain ⟨⟨hx, hsame⟩, hxs⟩ := List.forall_mem_cons.mp h
    obtain ⟨hrest, hsame'⟩ := ih hxs
    have hrun : ((x :: xs).mapM write).run w =
        (((write x).run w).1 :: ((xs.mapM write).run ((write x).run w).2).1,
          ((xs.mapM write).run ((write x).run w).2).2) := by
      rw [List.mapM_cons]
      rfl
    rw [hrun, hsame]
    exact ⟨.cons hx hrest, hsame'⟩

section Documents

variable {r : Registry} {enclosing : Option Text}

section Bound

variable (hr : r.Lawful) (hbound : ∀ e ∈ r.entries, e.schema.Everywhere r.BindsAt)

include hr hbound

theorem traces_schema {s : Schema} (hs : s.Everywhere r.BindsAt) (enclosing : Option Text)
    (w : List Text) {steps : Nat} (hsteps : r.size ≤ steps) :
    Traces r (writeSchema r s enclosing) (writeWith (writeReference r steps) enclosing s) enclosing
      s w :=
  traces_with
    (fun _ _ _ hb hw => traces_reference hr hbound hb hw (hw.trans hsteps)) hs enclosing
    pending_le_size

theorem writeTypes_traces (enclosing : Option Text) (names w : List Text) :
    ∃ rows : List (Row Schema),
      ((writeTypes r enclosing names).run w).1 = rows.map (·.json) ∧
      (∀ x ∈ rows, (∃ e ∈ r.entries, e.schema = x.source) ∧
        Depicts r enclosing x.source x.json x.marks) ∧
      Orderly w (rows.flatMap (·.marks)) ((writeTypes r enclosing names).run w).2 ∧
      ∀ name ∈ names, name ∈ r.names → name ∈ ((writeTypes r enclosing names).run w).2 := by
  induction names generalizing w with
  | nil => exact ⟨[], rfl, by simp, .nil, by simp⟩
  | cons name names ih =>
    by_cases hknown : ∀ s, r.find? name = some s → name ∈ w
    · obtain ⟨rows, hjson, hrows, horder, hall⟩ := ih w
      rw [writeTypes_of_known hknown]
      refine ⟨rows, hjson, hrows, horder, ?_⟩
      intro n hn hin
      rcases List.mem_cons.mp hn with rfl | hn
      · obtain ⟨e, hmem, rfl⟩ := List.mem_map.mp hin
        exact horder.subset (hknown _ (hr.find?_of_mem hmem))
      · exact hall n hn hin
    · obtain ⟨s, hs, hnew⟩ : ∃ s, r.find? name = some s ∧ name ∉ w := by
        simpa only [not_forall, exists_prop] using hknown
      obtain ⟨e, hmem, rfl, rfl⟩ := Registry.exists_entry_of_find? hs
      obtain ⟨marks, hshows, horder, -⟩ :=
        traces_schema hr hbound (hbound e hmem) enclosing w le_rfl
      obtain ⟨rows, hjson, hrows, horders, hall⟩ := ih ((writeSchema r e.schema enclosing).run w).2
      rw [writeTypes_of_new hs hnew]
      refine ⟨⟨e.schema, ((writeSchema r e.schema enclosing).run w).1, marks⟩ :: rows, ?_, ?_, ?_,
        ?_⟩
      · exact congrArg (((writeSchema r e.schema enclosing).run w).1 :: ·) hjson
      · exact List.forall_mem_cons.mpr ⟨⟨⟨e, hmem, rfl⟩, hshows⟩, hrows⟩
      · exact horder.append horders
      · intro n hn hin
        rcases List.mem_cons.mp hn with rfl | hn
        · obtain ⟨head, hhead, hfull⟩ := Schema.exists_definedHead? (hr.named e hmem)
          obtain ⟨mark, hmark, hsame⟩ := hshows.exists_mark hr (.defined hhead)
          rw [← hfull, ← hsame]
          exact horders.subset (horder.mem_of_mark hmark)
        · exact hall n hn hin

variable (hknown : ∀ e ∈ r.entries, e.schema.Everywhere r.Knows)

include hknown

theorem writeTypes_definesAll (enclosing : Option Text) :
    ∃ rows, ((writeTypes r enclosing r.names).run []).1 = rows.map (·.json) ∧
      DefinesAll r enclosing rows ∧
      ∀ name, name ∈ ((writeTypes r enclosing r.names).run []).2 ↔ name ∈ r.names := by
  obtain ⟨rows, hjson, hrows, horder, hall⟩ := writeTypes_traces hr hbound enclosing r.names []
  have hmem : ∀ name, name ∈ definitions (rows.flatMap (·.marks)) ↔ name ∈ r.names := by
    intro name
    rw [mem_definitions_iff]
    constructor
    · intro hd
      obtain ⟨x, hx, hd⟩ := List.mem_flatMap.mp hd
      obtain ⟨⟨e, he, hsource⟩, hshows⟩ := hrows x hx
      exact (hshows.exists_reaches hr hknown (hsource ▸ hknown e he) hd).1
    · intro hname
      exact (horder.mem_iff.mp (hall name hname hname)).resolve_right List.not_mem_nil
  refine ⟨rows, hjson, ⟨hrows, horder.definedFirst, ?_⟩, fun name => ?_⟩
  · exact (List.perm_ext_iff_of_nodup horder.nodup.1 hr.distinct).mpr hmem
  · rw [horder.mem_iff, ← mem_definitions_iff, hmem]
    simp

/-- Where all registered types are known, nothing but names is written. -/
theorem cites_schema {s : Schema} (hs : s.Everywhere r.BindsAt) (hs' : s.Everywhere r.Knows)
    (enclosing : Option Text) {w : List Text} (hw : ∀ name, name ∈ w ↔ name ∈ r.names) :
    Cites r enclosing s ((writeSchema r s enclosing).run w).1 ∧
      ((writeSchema r s enclosing).run w).2 = w := by
  obtain ⟨marks, hshows, horder, -⟩ := traces_schema hr hbound hs enclosing w le_rfl
  have hnames : ∀ full, .definition full ∉ marks := by
    intro full hd
    have hname := (hshows.exists_reaches hr hknown hs' hd).1
    exact horder.nodup.2 full hd ((hw full).mpr hname)
  have hsame := horder.eq_of_names hnames
  refine ⟨⟨marks, hshows, fun mark hmark => ?_⟩, hsame⟩
  have hmem := horder.mem_of_mark hmark
  rw [hsame, hw] at hmem
  cases mark with
  | definition full => exact absurd hmark (hnames full)
  | name full => exact ⟨full, hmem, rfl⟩

/-- One type with all that it uses: what it reaches is defined, and nothing else. -/
theorem writeStandalone_defines {e : Registry.Entry} (he : e ∈ r.entries) (w : List Text) :
    ∃ marks, Depicts r none e.schema ((writeStandalone r e.schema.full).run w).1 marks ∧
      DefinedFirst marks ∧
      ∀ full, full ∈ definitions marks ↔ r.Reaches e.schema.full full := by
  have hrun : (writeStandalone r e.schema.full).run w = (writeSchema r e.schema none).run [] := by
    simp only [writeStandalone, hr.find?_of_mem he]
    rfl
  obtain ⟨marks, hshows, horder, -⟩ := traces_schema hr hbound (hbound e he) none [] le_rfl
  obtain ⟨head, hhead, hfull⟩ := Schema.exists_definedHead? (hr.named e he)
  rw [hrun]
  refine ⟨marks, hshows, horder.definedFirst, fun full => ?_⟩
  rw [mem_definitions_iff]
  constructor
  · intro hd
    obtain ⟨-, first, hmention, hreach⟩ := hshows.exists_reaches hr hknown (hknown e he) hd
    rw [hmention.eq_of_definedHead? hhead, hfull] at hreach
    exact hreach
  · intro hreach
    induction hreach with
    | refl =>
      obtain ⟨mark, hmark, hsame⟩ := hshows.exists_mark hr (.defined hhead)
      rw [← hfull, ← hsame]
      exact horder.definition_of_mem hmark
    | tail _ hleads ih =>
      obtain ⟨mark, hmark, hsame⟩ :=
        hshows.exists_mark_of_leads hr hknown (hknown e he) ih hleads
      rw [← hsame]
      exact horder.definition_of_mem hmark

/-- A message whose types can be written, and which has no property in the place of its errors. -/
structure Citable (r : Registry) (m : Message) : Prop where
  bound : ∀ s ∈ m.types, s.Everywhere r.BindsAt
  known : ∀ s ∈ m.types, s.Everywhere r.Knows
  errors : m.errors.getD [] = [] → ("errors" : Text) ∉ m.properties.keys

theorem writeMessage_cites {m : Message} (hm : Citable r m) (enclosing : Option Text)
    {w : List Text} (hw : ∀ name, name ∈ w ↔ name ∈ r.names) :
    ∃ ms, (writeMessage r enclosing m).run w = (.object ms, w) ∧ CitesMessage r enclosing m ms := by
  have htype : ∀ s ∈ m.types, Cites r enclosing s ((writeSchema r s enclosing).run w).1 ∧
      ((writeSchema r s enclosing).run w).2 = w := fun s hs =>
    cites_schema hr hbound hknown (hm.bound s hs) (hm.known s hs) enclosing hw
  have hparameter : ∀ f ∈ m.request,
      CitesField r enclosing f ((writeField (fun s => writeSchema r s enclosing) f).run w).1 ∧
        ((writeField (fun s => writeSchema r s enclosing) f).run w).2 = w := by
    intro f hf
    obtain ⟨hcites, hsame⟩ := htype f.type (List.mem_append_left _ (List.mem_map_of_mem hf))
    exact ⟨⟨_, rfl, hcites⟩, hsame⟩
  have herror : ∀ s ∈ m.errors.getD [], Cites r enclosing s ((writeSchema r s enclosing).run w).1 ∧
      ((writeSchema r s enclosing).run w).2 = w := fun s hs =>
    htype s (List.mem_append_right _ (List.mem_cons_of_mem _ hs))
  obtain ⟨hrequest, hafter⟩ := mapM_of_same hparameter
  obtain ⟨hresponse, hafter'⟩ := htype m.response (List.mem_append_right _ List.mem_cons_self)
  obtain ⟨herrors, hafter''⟩ := mapM_of_same herror
  refine ⟨messageMembers m _ _ _, ?_, ⟨_, get?_request .., hrequest⟩,
    ⟨_, get?_response .., hresponse⟩, ⟨_, get?_errors _ _ _ _ ?_, herrors⟩⟩
  · rw [writeMessage_run]
    simp only [hafter, hafter', hafter'']
  · intro hnone
    rw [hnone] at herrors
    exact hm.errors (List.forall₂_nil_right_iff.mp herrors)

theorem writeMessages_cites {messages : List Message} (hm : ∀ m ∈ messages, Citable r m)
    (enclosing : Option Text) {w : List Text} (hw : ∀ name, name ∈ w ↔ name ∈ r.names)
    {done : Members} {x : Text × Json}
    (hx : x ∈ ((writeMessages r enclosing done messages).run w).1) :
    x ∈ done ∨ ∃ m ∈ messages, ∃ ms, x = (m.name, .object ms) ∧ CitesMessage r enclosing m ms := by
  induction messages generalizing done with
  | nil => exact .inl hx
  | cons m messages ih =>
    obtain ⟨hfirst, hrest⟩ := List.forall_mem_cons.mp hm
    obtain ⟨ms, hrun, hcites⟩ := writeMessage_cites hr hbound hknown hfirst enclosing hw
    have hstep : (writeMessages r enclosing done (m :: messages)).run w =
        (writeMessages r enclosing (done.put m.name (.object ms)) messages).run w := by
      simp only [writeMessages, StateT.run_bind, hrun]
      rfl
    rw [hstep] at hx
    rcases ih hrest hx with hx | ⟨m', hm', hcites'⟩
    · rcases Members.mem_put hx with rfl | hx
      · exact .inr ⟨m, List.mem_cons_self, ms, rfl, hcites⟩
      · exact .inl hx
    · exact .inr ⟨m', List.mem_cons_of_mem _ hm', hcites'⟩

end Bound

theorem exists_put_eq (ms : Members) (key : Text) (value : Json) :
    ∃ before after : Members, ms.put key value = before ++ (key, value) :: after ∧
      key ∉ before.keys ∧ ∀ k ∈ before.keys ++ after.keys, k ∈ ms.keys := by
  induction ms with
  | nil => exact ⟨[], [], rfl, by simp [Members.keys], by simp [Members.keys]⟩
  | cons m ms ih =>
    obtain ⟨k, v⟩ := m
    by_cases hk : k = key
    · subst hk
      refine ⟨[], ms, by simp [Members.put], by simp [Members.keys], ?_⟩
      intro other hother
      exact List.mem_cons_of_mem _ hother
    · obtain ⟨before, after, heq, hnew, hkeys⟩ := ih
      refine ⟨(k, v) :: before, after, by simp [Members.put, hk, heq], ?_, ?_⟩
      · exact fun hmem => (List.mem_cons.mp hmem).elim (Ne.symm hk) hnew
      · intro other hother
        rcases List.mem_cons.mp hother with rfl | hother
        · exact List.mem_cons_self
        · exact List.mem_cons_of_mem _ (hkeys other hother)

/-- The types of a protocol stand before its messages, which come last, unless a property has taken
their place. -/
theorem exists_protocolMembers_eq {p : Protocol} (h : ("messages" : Text) ∉ p.properties.keys)
    (types : List Json) (messages : Members) :
    ∃ before between : Members,
      protocolMembers p types messages =
        before ++ member "types" (.array types) ++ between ++
          member "messages" (.object messages) ∧
      ∀ key ∈ before.keys ++ between.keys, key ≠ ("types" : Text) ∧ key ≠ ("messages" : Text) := by
  let start := member "protocol" (.string p.name) ++
    optionalMember "namespace" (p.space.map .string) ++ docMember p.doc
  have hstart : start.Distinct := by
    cases hspace : p.space <;> cases hdoc : p.doc <;>
      simp +decide [start, hspace, hdoc, Members.Distinct, Members.keys, member, optionalMember,
        docMember]
  have hnew : ("messages" : Text) ∉ (start.merge p.properties).keys := by
    rw [← Members.get?_eq_none_iff] at h ⊢
    simp +decide [start, Members.get?_merge, docMember, h]
  obtain ⟨before, after, heq, hbefore, hkeys⟩ :=
    exists_put_eq (start.merge p.properties) "types" (.array types)
  have hafter : ("types" : Text) ∉ after.keys := by
    have hd := (hstart.merge p.properties).put "types" (.array types)
    rw [heq, Members.Distinct, Members.keys_append] at hd
    exact (List.nodup_cons.mp (List.nodup_append.mp hd).2.1).1
  have hlast : ("messages" : Text) ∉ (before ++ member "types" (.array types) ++ after).keys := by
    rw [Members.keys_append, Members.keys_append]
    intro hmem
    rcases List.mem_append.mp hmem with hmem | hmem
    · rcases List.mem_append.mp hmem with hmem | hmem
      · exact hnew (hkeys _ (List.mem_append_left _ hmem))
      · have hsame : ("messages" : Text) = "types" := List.mem_singleton.mp hmem
        exact absurd hsame (by decide)
    · exact hnew (hkeys _ (List.mem_append_right _ hmem))
  refine ⟨before, after, ?_, fun key hkey => ⟨?_, ?_⟩⟩
  · have hput : (start.merge p.properties).put "types" (.array types) =
        before ++ member "types" (.array types) ++ after := by
      rw [heq, List.append_assoc]
      rfl
    change ((start.merge p.properties).put "types" (.array types)).put "messages"
      (.object messages) = _
    rw [hput, Members.put_of_notMem hlast]
    rfl
  · rintro rfl
    exact (List.mem_append.mp hkey).elim hbefore hafter
  · rintro rfl
    exact hnew (hkeys _ hkey)

/-- Every type is defined once and before it is named: in a protocol whose types come before its
messages, in a list of all types, and in what is written for one type, which defines the types that
it reaches. The writer ends by itself, whatever number of references it may follow. -/
theorem defined_once_of_bound {messages : List Message} (hr : r.Lawful) (hb : r.Bound messages)
    (hc : r.Coherent messages) :
    (∀ s ∈ r.unitTypes messages none, ∀ enclosing w steps, r.size ≤ steps →
      (writeWith (writeReference r steps) enclosing s).run w =
        (writeSchema r s enclosing).run w) ∧
    (∀ p : Protocol, p.messages = messages → p.types = r.names →
      ("messages" : Text) ∉ p.properties.keys →
      (∀ m ∈ messages, m.errors.getD [] = [] → ("errors" : Text) ∉ m.properties.keys) →
      ∃ before between sent : Members, ∃ rows, ((writeProtocol r p).run []).1 =
          .object (before ++ member "types" (.array (rows.map (·.json))) ++ between ++
            member "messages" (.object sent)) ∧
        (∀ key ∈ before.keys ++ between.keys,
          key ≠ ("types" : Text) ∧ key ≠ ("messages" : Text)) ∧
        DefinesAll r p.space rows ∧
        ∀ x ∈ sent, ∃ m ∈ messages, ∃ ms, x = (m.name, .object ms) ∧
          CitesMessage r p.space m ms) ∧
    (∃ rows, ((writeNamed r r.names).run []).1 = .array (rows.map (·.json)) ∧
      DefinesAll r none rows) ∧
    ∀ e ∈ r.entries, ∀ w, ∃ marks,
      Depicts r none e.schema ((writeStandalone r e.schema.full).run w).1 marks ∧
        DefinedFirst marks ∧
        ∀ full, full ∈ definitions marks ↔ r.Reaches e.schema.full full := by
  have hb := Registry.bound_iff.mp hb
  have hentry : ∀ e ∈ r.entries, e.schema ∈ r.unitTypes messages none := fun e he =>
    List.mem_append_left _ (List.mem_append_left _ (List.mem_map_of_mem he))
  have hmessage : ∀ m ∈ messages, ∀ s ∈ m.types, s ∈ r.unitTypes messages none := fun m hm s hs =>
    List.mem_append_left _ (List.mem_append_right _ (List.mem_flatMap.mpr ⟨m, hm, hs⟩))
  have hbound : ∀ e ∈ r.entries, e.schema.Everywhere r.BindsAt := fun e he => hb _ (hentry e he)
  have hknown : ∀ e ∈ r.entries, e.schema.Everywhere r.Knows := fun e he => hc _ (hentry e he)
  refine ⟨?_, ?_, ?_, ?_⟩
  · intro s hs enclosing w steps hsteps
    obtain ⟨_, -, -, hsame⟩ := traces_schema hr hbound (hb s hs) enclosing w hsteps
    exact hsame
  · rintro p rfl htypes hproperties herrors
    have hcitable : ∀ m ∈ p.messages, Citable r m := fun m hm =>
      ⟨fun s hs => hb s (hmessage m hm s hs), fun s hs => hc s (hmessage m hm s hs), herrors m hm⟩
    obtain ⟨rows, hjson, hall, hw⟩ := writeTypes_definesAll hr hbound hknown p.space
    let sent :=
      ((writeMessages r p.space [] p.messages).run ((writeTypes r p.space r.names).run []).2).1
    obtain ⟨before, between, heq, hkeys⟩ :=
      exists_protocolMembers_eq hproperties ((writeTypes r p.space r.names).run []).1 sent
    refine ⟨before, between, sent, rows, ?_, hkeys, hall, fun x hx => ?_⟩
    · rw [← hjson, ← heq]
      simp only [sent, ← htypes]
      rfl
    · exact (writeMessages_cites hr hbound hknown hcitable p.space hw hx).resolve_left
        List.not_mem_nil
  · obtain ⟨rows, hjson, hall, -⟩ := writeTypes_definesAll hr hbound hknown none
    refine ⟨rows, ?_, hall⟩
    rw [← hjson]
    rfl
  · intro e he w
    exact writeStandalone_defines hr hbound hknown he w

end Documents

section Loop

/-- Two records that refer to each other, and a message that returns the first. -/
def leftReference : Schema := .reference { name := "Left", binding := some 0 }

def leftRecord : Schema :=
  .record { name := "Left" } false
    [{ name := "right", type := .reference { name := "Right", binding := some 1 } }]

def rightRecord : Schema :=
  .record { name := "Right" } false
    [{ name := "left", type := .compound (.union true) [.plain .null, leftReference] {} }]

def loopRegistry : Registry :=
  { entries := [{ schema := leftRecord, origin := [] }, { schema := rightRecord, origin := [] }] }

def loopProtocol : Protocol :=
  { name := "P", types := ["Left", "Right"]
    messages := [{ name := "get", response := leftReference }] }

theorem loopRegistry_wellShaped :
    loopRegistry.WellShaped loopProtocol.messages ∧ loopRegistry.Bound loopProtocol.messages := by
  decide +kernel

/-- In the protocol of the two records both are defined once, and so they are in what is written for
one of them. -/
theorem loopProtocol_defined_once :
    (∃ before between sent : Members, ∃ rows,
      ((writeProtocol loopRegistry loopProtocol).run []).1 =
        .object (before ++ member "types" (.array (rows.map (·.json))) ++ between ++
          member "messages" (.object sent)) ∧
      DefinesAll loopRegistry none rows) ∧
    ∃ marks, Depicts loopRegistry none leftRecord
        ((writeStandalone loopRegistry "Left").run []).1 marks ∧
      DefinedFirst marks ∧ ("Right" : Text) ∈ definitions marks := by
  obtain ⟨hw, hb⟩ := loopRegistry_wellShaped
  obtain ⟨-, hprotocol, -, hstandalone⟩ := defined_once_of_bound hw.lawful hb hw.coherent
  constructor
  · obtain ⟨before, between, sent, rows, hdocument, -, hall, -⟩ :=
      hprotocol loopProtocol rfl (by decide +kernel) (by decide) (by decide)
    exact ⟨before, between, sent, rows, hdocument, hall⟩
  · obtain ⟨marks, hshows, hfirst, hreaches⟩ := hstandalone _ List.mem_cons_self []
    refine ⟨marks, hshows, hfirst, (hreaches _).mpr (.single ?_)⟩
    exact ⟨{ name := "Left" }, false, _, rfl, _, List.mem_singleton_self _, .reference _⟩

/-- A property of a protocol keeps its place before the types when the messages are put at its key,
so that they name types that are defined after them. -/
theorem exists_named_before_defined :
    loopRegistry.Lawful ∧ loopRegistry.Bound loopProtocol.messages ∧
      loopRegistry.Coherent loopProtocol.messages ∧ loopProtocol.types = loopRegistry.names ∧
      ∃ types, ((writeProtocol loopRegistry
          { loopProtocol with properties := member "messages" .null }).run []).1 =
        .object (member "protocol" (.string "P") ++
          member "messages" (.object (member "get" (.object (member "request" (.array []) ++
            member "response" (.string "Left"))))) ++
          member "types" (.array types)) := by
  obtain ⟨hw, hb⟩ := loopRegistry_wellShaped
  exact ⟨hw.lawful, hb, hw.coherent, by decide +kernel, _, rfl⟩

end Loop

end Document

end AvroIdl
