import AvroIdl.Proofs.DefaultAcceptance
import AvroIdl.Proofs.Shape
import Mathlib.Logic.Basic

/-!
# Defaults are checked by names

Defaults are checked after references have been bound. Because a reference is bound to the place of
its name, the checks find the types that searching the names before would have found; so it does not
matter for them at which places the types are registered.
-/
namespace AvroIdl

namespace Registry

/-- The lookup that searches for the name of a reference. -/
def byName (r : Registry) : Schema.Lookup := fun ref => r.find? ref.full

/-- A default that the checks let through fits its type and leaves out nothing. -/
def DefaultFits (lookup : Schema.Lookup) (f : Field) : Prop :=
  ∀ v, f.default = some v →
    Default.mismatch? lookup f.type v = none ∧ Default.missing? lookup f.type v = none

theorem defaultProblem?_eq_none_iff {r : Registry} (owner file : Text) {f : Field} :
    r.defaultProblem? owner file f = none ↔ DefaultFits r.lookup f := by
  unfold defaultProblem? DefaultFits
  cases hd : f.default with
  | none => simp
  | some v =>
    simp only [Option.bind_some, Option.some.injEq, forall_eq']
    cases Default.mismatch? r.lookup f.type v <;> simp

/-- The fields of a record. -/
def ownFields : Schema → List Field
  | .record _ _ fields => fields
  | _ => []

/-- The fields of records and the parameters of messages. -/
def defaultFields (types : List Schema) (messages : List Message) : List Field :=
  types.flatMap ownFields ++ messages.flatMap (·.request)

theorem validateDefaults_eq_nil_iff {r : Registry} {messages : List Message} :
    r.validateDefaults messages = [] ↔
      ∀ f ∈ defaultFields (r.entries.map (·.schema)) messages, DefaultFits r.lookup f := by
  rw [List.eq_nil_iff_forall_not_mem]
  constructor
  · intro h f hf
    have hchecks : ∃ owner file, r.Checks messages owner file f := by
      simp only [defaultFields, List.mem_append, List.mem_flatMap, List.mem_map] at hf
      rcases hf with ⟨_, ⟨e, he, rfl⟩, hf⟩ | ⟨m, hm, hf⟩
      · unfold ownFields at hf
        split at hf
        · next hrecord => exact ⟨_, _, .field he hrecord hf⟩
        · cases hf
      · exact ⟨_, _, .parameter hm hf⟩
    obtain ⟨owner, file, hc⟩ := hchecks
    rw [← defaultProblem?_eq_none_iff owner file, Option.eq_none_iff_forall_ne_some]
    exact fun d hd => h d (mem_validateDefaults_iff.mpr ⟨owner, file, f, hc, hd⟩)
  · intro h d hd
    obtain ⟨owner, file, f, hc, hproblem⟩ := mem_validateDefaults_iff.mp hd
    have hf : f ∈ defaultFields (r.entries.map (·.schema)) messages := by
      simp only [defaultFields, List.mem_append, List.mem_flatMap, List.mem_map]
      cases hc with
      | field entry record field => exact .inl ⟨_, ⟨_, entry, rfl⟩, by rw [record]; exact field⟩
      | parameter message parameter => exact .inr ⟨_, message, parameter⟩
    rw [(defaultProblem?_eq_none_iff _ _).mpr (h f hf)] at hproblem
    cases hproblem

section Resolved

variable {r : Registry} {messages : List Message} {main : Option Schema}

theorem indexOf?_resolveAll (full : Text) :
    (r.resolveAll messages main).registry.indexOf? full = r.indexOf? full := by
  rw [indexOf?, names_resolveAll, indexOf?]

theorem find?_resolveAll (full : Text) :
    (r.resolveAll messages main).registry.find? full =
      (r.find? full).map (Schema.bindAll r.indexOf?) := by
  rw [find?, entry?, indexOf?_resolveAll, find?, entry?]
  cases r.indexOf? full with
  | none => rfl
  | some i => simp [resolveAll, List.getElem?_map, Option.map_map, Function.comp_def]

/-- A reference that was not bound before leads to the type of its name, whether binding reaches it
or not. -/
theorem lookup_bind {ref : Reference} (hfree : ref.binding = none) (levels : Nat) :
    ((Schema.reference ref).bind r.indexOf? levels).resolve?
        (r.resolveAll messages main).registry.lookup =
      (r.byName ref).map (Schema.bindAll r.indexOf?) := by
  have hname : ∀ ref' : Reference, ref'.full = ref.full → ref'.binding = none →
      (r.resolveAll messages main).registry.lookup ref' =
        (r.byName ref).map (Schema.bindAll r.indexOf?) := by
    intro ref' hfull hnone
    simp [lookup, hnone, hfull, find?_resolveAll, byName]
  cases levels with
  | zero => exact hname ref rfl hfree
  | succ levels =>
    rw [Schema.bind_reference]
    change (r.resolveAll messages main).registry.lookup _ = _
    cases hi : r.indexOf? ref.full with
    | none =>
      have hkeep : ref.bind r.indexOf? = ref := by simp [Reference.bind, hi]
      rw [hkeep]
      exact hname ref rfl hfree
    | some i =>
      obtain ⟨e, he, -⟩ := exists_entry_of_indexOf? hi
      have hbound := Reference.binding_bind hi
      simp [lookup, hbound, byName, find?, entry?, hi, he, resolveAll]

variable (messages main) in
/-- What a schema denotes once references are bound is what it denotes by names, with references
bound in it. -/
theorem resolve?_bind {s : Schema} (hs : s.Unbound) (levels : Nat) :
    ∃ left, (s.bind r.indexOf? levels).resolve? (r.resolveAll messages main).registry.lookup =
      (s.resolve? r.byName).map (Schema.bind r.indexOf? left) := by
  cases s with
  | reference ref => exact ⟨Schema.bindingLevels, lookup_bind hs levels⟩
  | record h e fields =>
    refine ⟨levels, ?_⟩
    cases levels <;> rfl
  | compound shape parts n =>
    refine ⟨levels, ?_⟩
    cases levels <;> rfl
  | primitive p n => exact ⟨levels, by simp [Schema.resolve?]⟩
  | enumeration h symbols d => exact ⟨levels, by simp [Schema.resolve?]⟩
  | fixed h size => exact ⟨levels, by simp [Schema.resolve?]⟩

end Resolved

end Registry

namespace Schema

theorem exists_bind_record (place : Placement) (levels : Nat) (h : Head) (e : Bool)
    (fields : List Field) :
    ∃ left, bind place levels (.record h e fields) =
      .record h e (fields.map fun f => { f with type := bind place left f.type }) := by
  cases levels with
  | zero => exact ⟨0, by simp⟩
  | succ levels => exact ⟨levels, bind_record ..⟩

theorem exists_bind_compound (place : Placement) (levels : Nat) (shape : Shape)
    (parts : List Schema) (n : Note) :
    ∃ left, bind place levels (.compound shape parts n) =
      .compound shape (parts.map (bind place left)) n := by
  cases levels with
  | zero => exact ⟨0, by rw [bind_zero, show bind place 0 = id from funext (bind_zero place)]; simp⟩
  | succ levels => exact ⟨levels, bind_compound ..⟩

end Schema

namespace Registry

open Default

/-- Nothing in the registered types is bound. -/
def Free (r : Registry) : Prop := ∀ e ∈ r.entries, e.schema.Everywhere Schema.Unbound

section Checks

variable {r : Registry} {messages : List Message} {main : Option Schema}

theorem Free.resolve? (hr : r.Free) {s target : Schema} (hs : s.Everywhere Schema.Unbound)
    (h : s.resolve? r.byName = some target) : target.Everywhere Schema.Unbound := by
  cases s with
  | reference ref =>
    obtain ⟨e, he, rfl⟩ := Option.map_eq_some_iff.mp (show r.find? ref.full = some target from h)
    obtain ⟨i, -, he⟩ := Option.bind_eq_some_iff.mp (show r.entry? ref.full = some e from he)
    exact hr e (List.mem_of_getElem? he)
  | _ =>
    cases h
    exact hs

/-- A value fits a type once references are bound exactly if it does by names. -/
theorem fits_bind_iff (hr : r.Free) {s : Schema} (hs : s.Everywhere Schema.Unbound) {v : Json}
    {levels left : Nat} :
    mismatchWithin? (r.resolveAll messages main).registry.lookup levels (s.bind r.indexOf? left) v =
        none ↔
      mismatchWithin? r.byName levels s v = none := by
  induction levels generalizing s v left with
  | zero => exact Iff.rfl
  | succ levels ih =>
    obtain ⟨l, hbound⟩ := resolve?_bind (r := r) messages main hs.self left
    cases hres : s.resolve? r.byName with
    | none =>
      rw [hres] at hbound
      simp only [mismatchWithin?, hbound, hres, Option.map_none]
    | some target =>
      rw [hres] at hbound
      have htarget := hr.resolve? hs hres
      cases target with
      | primitive p n => simp only [mismatchWithin?, hbound, hres, Option.map_some,
          Schema.bind_primitive]
      | fixed head size => simp only [mismatchWithin?, hbound, hres, Option.map_some,
          Schema.bind_fixed]
      | enumeration head symbols d => simp only [mismatchWithin?, hbound, hres, Option.map_some,
          Schema.bind_enumeration]
      | reference ref =>
        cases l <;> simp only [mismatchWithin?, hbound, hres, Option.map_some, Schema.bind_zero,
          Schema.bind_reference]
      | record head e fields =>
        obtain ⟨m, hm⟩ := Schema.exists_bind_record r.indexOf? l head e fields
        rw [Option.map_some, hm] at hbound
        have hinside := (Schema.everywhere_record_iff.mp htarget).2
        rw [(checks_congr (t := .record head e fields) hres v).1,
          (checks_congr (t := .record head e _) hbound v).1]
        cases v with
        | object members =>
          simp only [mismatch_record_iff, List.forall_mem_map]
          exact forall₂_congr fun f hf => forall₂_congr fun w _ => ih (hinside f hf)
        | _ => exact iff_of_false (Option.some_ne_none _) (Option.some_ne_none _)
      | compound shape parts n =>
        obtain ⟨m, hm⟩ := Schema.exists_bind_compound r.indexOf? l shape parts n
        rw [Option.map_some, hm] at hbound
        have hinside := (Schema.everywhere_compound_iff.mp htarget).2
        rw [(checks_congr (t := .compound shape parts n) hres v).1,
          (checks_congr (t := .compound shape _ n) hbound v).1]
        have hfirst : ∀ w, (∀ part, (parts.map (Schema.bind r.indexOf? m)).head? = some part →
            mismatchWithin? (r.resolveAll messages main).registry.lookup levels part w = none) ↔
              ∀ part, parts.head? = some part → mismatchWithin? r.byName levels part w = none := by
          intro w
          simp only [List.head?_map, Option.map_eq_some_iff, forall_exists_index, and_imp,
            forall_apply_eq_imp_iff₂]
          exact forall₂_congr fun part hp => ih (hinside part (List.mem_of_mem_head? hp))
        cases shape with
        | array =>
          cases v with
          | array elements =>
            rw [mismatch_array_iff, mismatch_array_iff]
            exact forall₂_congr fun e _ => hfirst e
          | _ => exact iff_of_false (Option.some_ne_none _) (Option.some_ne_none _)
        | map =>
          cases v with
          | object members =>
            rw [mismatch_map_iff, mismatch_map_iff]
            exact forall₂_congr fun x _ => hfirst x.2
          | _ => exact iff_of_false (Option.some_ne_none _) (Option.some_ne_none _)
        | logical k precision scale =>
          rw [mismatch_logical_iff, mismatch_logical_iff]
          exact hfirst v
        | union isOptional =>
          simp only [mismatch_union_iff, List.mem_map, exists_exists_and_eq_and]
          exact exists_congr fun b => and_congr_right fun hb => ih (hinside b hb)

theorem denotesRecord_bind_iff {s : Schema} (hs : s.Unbound) {left : Nat} :
    DenotesRecord (r.resolveAll messages main).registry.lookup (s.bind r.indexOf? left) ↔
      DenotesRecord r.byName s := by
  obtain ⟨l, hbound⟩ := resolve?_bind (r := r) messages main hs left
  unfold DenotesRecord
  rw [hbound]
  cases s.resolve? r.byName with
  | none => simp
  | some target =>
    cases target <;> cases l <;> simp

/-- A value leaves out a field once references are bound exactly if it does by names. -/
theorem filled_bind_iff (hr : r.Free) {s : Schema} (hs : s.Everywhere Schema.Unbound) {v : Json}
    {levels left : Nat} :
    Filled (r.resolveAll messages main).registry.lookup levels (s.bind r.indexOf? left) v ↔
      Filled r.byName levels s v := by
  induction levels generalizing s v left with
  | zero => exact Iff.rfl
  | succ levels ih =>
    obtain ⟨l, hbound⟩ := resolve?_bind (r := r) messages main hs.self left
    cases hres : s.resolve? r.byName with
    | none =>
      rw [hres] at hbound
      simp only [Filled, hbound, hres, Option.map_none]
    | some target =>
      rw [hres, Option.map_some] at hbound
      have htarget := hr.resolve? hs hres
      cases target with
      | primitive p n => simp only [Filled, hbound, hres, Schema.bind_primitive]
      | fixed head size => simp only [Filled, hbound, hres, Schema.bind_fixed]
      | enumeration head symbols d => simp only [Filled, hbound, hres, Schema.bind_enumeration]
      | reference ref =>
        cases l <;>
          simp only [Filled, hbound, hres, Schema.bind_zero, Schema.bind_reference]
      | record head e fields =>
        obtain ⟨m, hm⟩ := Schema.exists_bind_record r.indexOf? l head e fields
        rw [hm] at hbound
        have hinside := (Schema.everywhere_record_iff.mp htarget).2
        cases v with
        | object members =>
          simp only [Filled, hbound, hres, List.forall_mem_map]
          refine and_congr_left fun _ => ?_
          exact forall₂_congr fun f hf => forall₂_congr fun w _ => ih (hinside f hf)
        | _ => simp only [Filled, hbound, hres]
      | compound shape parts n =>
        obtain ⟨m, hm⟩ := Schema.exists_bind_compound r.indexOf? l shape parts n
        rw [hm] at hbound
        have hinside := (Schema.everywhere_compound_iff.mp htarget).2
        have hfirst : ∀ w, (∀ part, (parts.map (Schema.bind r.indexOf? m)).head? = some part →
            Filled (r.resolveAll messages main).registry.lookup levels part w) ↔
              ∀ part, parts.head? = some part → Filled r.byName levels part w := by
          intro w
          simp only [List.head?_map, Option.map_eq_some_iff, forall_exists_index, and_imp,
            forall_apply_eq_imp_iff₂]
          exact forall₂_congr fun part hp => ih (hinside part (List.mem_of_mem_head? hp))
        cases shape with
        | array =>
          cases v with
          | array elements =>
            simp only [Filled, hbound, hres]
            exact forall₂_congr fun e _ => hfirst e
          | _ => simp only [Filled, hbound, hres]
        | map =>
          cases v with
          | object members =>
            simp only [Filled, hbound, hres]
            exact forall₂_congr fun x _ => hfirst x.2
          | _ => simp only [Filled, hbound, hres]
        | logical k precision scale => cases v <;> simp only [Filled, hbound, hres]
        | union isOptional =>
          cases v with
          | object members =>
            simp only [Filled, hbound, hres, List.mem_map, exists_exists_and_eq_and]
            have hrecord : ∀ b ∈ parts,
                (DenotesRecord (r.resolveAll messages main).registry.lookup
                  (b.bind r.indexOf? m) ↔ DenotesRecord r.byName b) :=
              fun b hb => denotesRecord_bind_iff (hinside b hb).self
            refine imp_congr (exists_congr fun b => and_congr_right (hrecord b)) ?_
            exact exists_congr fun b => and_congr_right fun hb =>
              and_congr (hrecord b hb) (ih (hinside b hb))
          | _ => simp only [Filled, hbound, hres]

theorem defaultFits_bind_iff (hr : r.Free) {f : Field} (hf : f.type.Everywhere Schema.Unbound)
    (left : Nat) :
    DefaultFits (r.resolveAll messages main).registry.lookup
        { f with type := f.type.bind r.indexOf? left } ↔
      DefaultFits r.byName f := by
  refine forall₂_congr fun v _ => and_congr (fits_bind_iff hr hf) ?_
  rw [missing?, missing_eq_none_iff, missing?, missing_eq_none_iff]
  exact filled_bind_iff hr hf

/-- The defaults of a resolved unit pass their checks exactly if they do by names. -/
theorem validateDefaults_resolveAll_iff (hr : r.Free)
    (hm : ∀ m ∈ messages, ∀ f ∈ m.request, f.type.Everywhere Schema.Unbound) :
    (r.resolveAll messages main).registry.validateDefaults (r.resolveAll messages main).messages =
        [] ↔
      ∀ f ∈ defaultFields (r.entries.map (·.schema)) messages, DefaultFits r.byName f := by
  have htypes : ∀ s : Schema, s.Everywhere Schema.Unbound →
      ((∀ f ∈ ownFields (s.bindAll r.indexOf?),
          DefaultFits (r.resolveAll messages main).registry.lookup f) ↔
        ∀ f ∈ ownFields s, DefaultFits r.byName f) := by
    intro s hs
    cases s with
    | record h e fields =>
      have hinside := (Schema.everywhere_record_iff.mp hs).2
      rw [Schema.bindAll, Schema.bindingLevels, Schema.bind_record, ownFields, ownFields,
        List.forall_mem_map]
      exact forall₂_congr fun f hf => defaultFits_bind_iff hr (hinside f hf) 256
    | _ => exact iff_of_true (List.forall_mem_nil _) (List.forall_mem_nil _)
  have hrequest : ∀ m ∈ messages,
      ((∀ f ∈ (m.bindAll r.indexOf?).request,
          DefaultFits (r.resolveAll messages main).registry.lookup f) ↔
        ∀ f ∈ m.request, DefaultFits r.byName f) := by
    intro m hmem
    rw [Message.bindAll, List.forall_mem_map]
    exact forall₂_congr fun f hf => defaultFits_bind_iff hr (hm m hmem f hf) _
  have hentries : (r.resolveAll messages main).registry.entries.map (·.schema) =
      (r.entries.map (·.schema)).map (Schema.bindAll r.indexOf?) := by
    simp [resolveAll]
  rw [validateDefaults_eq_nil_iff, hentries]
  simp only [defaultFields, List.forall_mem_append, List.forall_mem_flatMap, List.forall_mem_map]
  refine and_congr (forall₂_congr fun e he => htypes _ (hr e he)) ?_
  rw [resolveAll, List.forall_mem_map]
  exact forall₂_congr hrequest

end Checks

end Registry

end AvroIdl
