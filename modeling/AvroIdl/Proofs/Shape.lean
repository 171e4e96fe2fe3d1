import AvroIdl.Proofs.Binding
import AvroIdl.Proofs.Members
import AvroIdl.Schema.Logical

/-!
# The shape of schemas

What a schema looks like that was built from a source or read from a document, node by node: named
types stand inside others only as references, logical types are in the form that `promote` gives
them, and what has to be unique is unique. `Fresh` asks for this shape throughout, and for
references that nothing has bound yet.
-/
namespace AvroIdl

section Unseen

variable {α : Type} {key : α → Text} {seen : List Text}

/-- The keys of a list differ from each other and from those before them. -/
def Unseen (key : α → Text) (seen : List Text) (xs : List α) : Prop :=
  (xs.map key).Nodup ∧ ∀ x ∈ xs, key x ∉ seen

theorem unseen_nil : Unseen key seen [] := by simp [Unseen]

theorem Unseen.cons {x : α} {xs : List α} (hx : key x ∉ seen)
    (h : Unseen key (key x :: seen) xs) : Unseen key seen (x :: xs) := by
  obtain ⟨hnodup, hseen⟩ := h
  refine ⟨?_, ?_⟩
  · rw [List.map_cons, List.nodup_cons]
    refine ⟨fun hmem => ?_, hnodup⟩
    obtain ⟨y, hy, he⟩ := List.mem_map.mp hmem
    exact hseen y hy (he ▸ List.mem_cons_self)
  · intro y hy
    rcases List.mem_cons.mp hy with rfl | hy
    · exact hx
    · exact fun hin => hseen y hy (List.mem_cons_of_mem _ hin)

theorem Unseen.of_cons {x : α} {xs : List α} (h : Unseen key seen (x :: xs)) :
    key x ∉ seen ∧ Unseen key (key x :: seen) xs := by
  obtain ⟨hnodup, hseen⟩ := h
  obtain ⟨hx, hnodup⟩ := List.nodup_cons.mp hnodup
  refine ⟨hseen x List.mem_cons_self, hnodup, ?_⟩
  intro y hy hin
  rcases List.mem_cons.mp hin with he | hin
  · exact hx (he ▸ List.mem_map_of_mem hy)
  · exact hseen y (List.mem_cons_of_mem _ hy) hin

theorem Unseen.append {xs ys : List α} (hx : Unseen key seen xs)
    (hy : Unseen key (xs.map key ++ seen) ys) : Unseen key seen (xs ++ ys) := by
  refine ⟨?_, ?_⟩
  · rw [List.map_append, List.nodup_append]
    refine ⟨hx.1, hy.1, ?_⟩
    intro a ha b hb hab
    obtain ⟨y, hmem, rfl⟩ := List.mem_map.mp hb
    exact hy.2 y hmem (List.mem_append_left _ (hab ▸ ha))
  · intro z hz
    rcases List.mem_append.mp hz with hz | hz
    · exact hx.2 z hz
    · exact fun hin => hy.2 z hz (List.mem_append_right _ hin)

end Unseen

theorem Scope.dot_notMem_qualify (s : Scope) (name : Text) : Byte.dot ∉ (s.qualify name).name := by
  unfold qualify
  split
  · next h => exact Text.splitLast_eq_none_iff.mp h
  · next h => exact (Text.splitLast_eq_some_iff.mp h).2

/-- The precision and scale that go with a meaning, over a base that may have a size. -/
def LogicalKind.Suits (kind : LogicalKind) (size : Option Nat) (precision scale : Nat) : Prop :=
  match kind with
  | .decimal =>
    1 ≤ precision ∧ precision ≤ Decimal.parameterLimit ∧ scale ≤ precision ∧
      ∀ n ∈ size, precision ≤ Decimal.maxPrecision n
  | .duration => size = some 12 ∧ precision = 0 ∧ scale = 0
  | _ => precision = 0 ∧ scale = 0

instance (kind : LogicalKind) (size : Option Nat) (precision scale : Nat) :
    Decidable (kind.Suits size precision scale) :=
  match kind with
  | .decimal =>
    inferInstanceAs (Decidable (1 ≤ precision ∧ precision ≤ Decimal.parameterLimit ∧
      scale ≤ precision ∧ ∀ n ∈ size, precision ≤ Decimal.maxPrecision n))
  | .duration => inferInstanceAs (Decidable (size = some 12 ∧ precision = 0 ∧ scale = 0))
  | .date | .timeMillis | .timestampMillis | .localTimestampMillis | .uuid =>
    inferInstanceAs (Decidable (precision = 0 ∧ scale = 0))

namespace Schema

/-- The meaning that the properties of a type ask for, with its precision and scale. -/
def meaning? (base : Schema) : Option (LogicalKind × Nat × Nat) :=
  (((base.properties.get? "logicalType").bind Json.string?).bind LogicalKind.ofText?).bind
    fun kind =>
      if kind.accepts base.kind then (logicalParameters? kind base).map (kind, ·) else none

theorem promote_eq (base : Schema) :
    base.promote =
      match base.meaning? with
      | none => base
      | some (kind, precision, scale) =>
        logicalOver kind precision scale (base.properties.without (logicalKeys kind))
          (base.mapNote fun n => { n with properties := [] }) := by
  unfold promote meaning?
  dsimp only
  cases ((base.properties.get? "logicalType").bind Json.string?).bind LogicalKind.ofText? with
  | none => rfl
  | some kind =>
    by_cases ha : kind.accepts base.kind = true
    · cases hp : logicalParameters? kind base <;> simp [ha, hp]
    · simp [ha]

theorem meaning?_eq_some {base : Schema} {kind : LogicalKind} {precision scale : Nat}
    (h : base.meaning? = some (kind, precision, scale)) :
    kind.accepts base.kind = true ∧ logicalParameters? kind base = some (precision, scale) := by
  obtain ⟨k, -, h⟩ := Option.bind_eq_some_iff.mp h
  split at h
  · next ha =>
    obtain ⟨p, hp, he⟩ := Option.map_eq_some_iff.mp h
    cases he
    exact ⟨ha, hp⟩
  · cases h

/-- The properties that can give a type a meaning. -/
def meaningKeys : List Text := ["logicalType", "precision", "scale"]

/-- The meaning depends on nothing but three properties, the kind and the size. -/
theorem meaning?_congr {s t : Schema}
    (hp : ∀ key ∈ meaningKeys, s.properties.get? key = t.properties.get? key)
    (hk : s.kind = t.kind) (hn : s.fixedSize? = t.fixedSize?) : s.meaning? = t.meaning? := by
  have hlogical := hp "logicalType" (by decide)
  have hparameter : ∀ key ∈ meaningKeys,
      Decimal.parameter? s.properties key = Decimal.parameter? t.properties key := by
    intro key hkey
    unfold Decimal.parameter?
    rw [hp key hkey]
  have hscale : Decimal.scale? s.properties = Decimal.scale? t.properties := by
    unfold Decimal.scale? Members.contains
    rw [hp "scale" (by decide), hparameter "scale" (by decide)]
  have hpar : ∀ kind, logicalParameters? kind s = logicalParameters? kind t := by
    intro kind
    unfold logicalParameters?
    rw [hparameter "precision" (by decide), hscale, hn]
  simp only [meaning?, hlogical, hk, hpar]

theorem meaning?_eq_none {s : Schema} (h : s.properties = []) : s.meaning? = none := by
  simp [meaning?, h]

theorem promote_of_meaning?_eq_none {s : Schema} (h : s.meaning? = none) : s.promote = s := by
  rw [promote_eq, h]

theorem parameter?_le {properties : Members} {key : Text} {n : Nat}
    (h : Decimal.parameter? properties key = some n) : n ≤ Decimal.parameterLimit := by
  unfold Decimal.parameter? at h
  split at h
  · split at h
    · cases h
      omega
    · cases h
  · cases h

theorem suits_of_logicalParameters? {kind : LogicalKind} {base : Schema} {precision scale : Nat}
    (h : logicalParameters? kind base = some (precision, scale)) :
    kind.Suits base.fixedSize? precision scale := by
  unfold logicalParameters? at h
  split at h
  · obtain ⟨p, hp, h⟩ := Option.bind_eq_some_iff.mp h
    obtain ⟨s, -, h⟩ := Option.bind_eq_some_iff.mp h
    dsimp only at h
    split at h
    · next hfits =>
      cases h
      obtain ⟨hone, hscale, hsize⟩ := hfits
      refine ⟨hone, parameter?_le hp, hscale, ?_⟩
      intro n hn
      rw [Option.mem_def.mp hn] at hsize
      simpa using hsize
    · cases h
  · split at h
    · next hsize =>
      cases h
      exact ⟨hsize, rfl, rfl⟩
    · cases h
  · next hdecimal hduration =>
    cases h
    cases kind <;> simp_all [LogicalKind.Suits]

section MapNote

variable (f : Note → Note) (s : Schema)

@[simp]
theorem note_mapNote : (s.mapNote f).note = f s.note := by
  cases s <;> rfl

@[simp]
theorem kind_mapNote : (s.mapNote f).kind = s.kind := by
  cases s with
  | compound shape parts n => cases shape <;> rfl
  | _ => rfl

@[simp]
theorem fixedSize?_mapNote : (s.mapNote f).fixedSize? = s.fixedSize? := by
  cases s <;> rfl

@[simp]
theorem isUnion_mapNote : (s.mapNote f).isUnion = s.isUnion := by
  simp [isUnion]

@[simp]
theorem isNamed_mapNote : (s.mapNote f).isNamed = s.isNamed := by
  cases s with
  | compound shape parts n =>
    cases shape with
    | logical k precision scale =>
      cases parts with
      | nil => rfl
      | cons base rest => cases base <;> rfl
    | _ => rfl
  | _ => rfl

end MapNote

/-- A part of another type: a named type is there only by reference. -/
abbrev Inner (s : Schema) : Prop := s.isNamed = false

/-- What the parts and the properties of a schema look like. -/
def Proper : Schema → Prop
  | primitive p n => n.properties.Distinct ∧ (primitive p n).meaning? = none
  | record h _ fields =>
    h.properties.Distinct ∧ (fields.map (·.name)).Nodup ∧
      ∀ f ∈ fields, f.properties.Distinct ∧ f.type.Inner
  | enumeration h symbols _ => h.properties.Distinct ∧ symbols.Nodup
  | fixed h size => h.properties.Distinct ∧ size < pow2 32 ∧ (fixed h size).meaning? = none
  | compound .array parts n | compound .map parts n =>
    n.properties.Distinct ∧ ∃ part, parts = [part] ∧ part.Inner
  | compound (.union _) parts n =>
    n.properties = [] ∧ (∀ p ∈ parts, p.isUnion = false ∧ p.Inner) ∧ (parts.map branchKey).Nodup
  | compound (.logical k precision scale) parts n =>
    n.properties.Distinct ∧ ∃ base, parts = [base] ∧ base.properties = [] ∧
      k.accepts base.kind = true ∧ k.Suits base.fixedSize? precision scale
  | reference r => Byte.dot ∉ r.name

instance {P : Schema → Prop} [DecidablePred P] :
    (parts : List Schema) → Decidable (∃ part, parts = [part] ∧ P part)
  | [] => isFalse (by simp)
  | [part] => decidable_of_iff (P part) (by simp)
  | _ :: _ :: _ => isFalse (by simp)

instance : DecidablePred Proper
  | primitive p n =>
    inferInstanceAs (Decidable (n.properties.Distinct ∧ (primitive p n).meaning? = none))
  | record h _ fields =>
    inferInstanceAs (Decidable (h.properties.Distinct ∧ (fields.map (·.name)).Nodup ∧
      ∀ f ∈ fields, f.properties.Distinct ∧ f.type.Inner))
  | enumeration h symbols _ =>
    inferInstanceAs (Decidable (h.properties.Distinct ∧ symbols.Nodup))
  | fixed h size =>
    inferInstanceAs (Decidable (h.properties.Distinct ∧ size < pow2 32 ∧
      (fixed h size).meaning? = none))
  | compound .array parts n =>
    inferInstanceAs (Decidable (n.properties.Distinct ∧ ∃ part, parts = [part] ∧ part.Inner))
  | compound .map parts n =>
    inferInstanceAs (Decidable (n.properties.Distinct ∧ ∃ part, parts = [part] ∧ part.Inner))
  | compound (.union _) parts n =>
    inferInstanceAs (Decidable (n.properties = [] ∧
      (∀ p ∈ parts, p.isUnion = false ∧ p.Inner) ∧ (parts.map branchKey).Nodup))
  | compound (.logical k precision scale) parts n =>
    inferInstanceAs (Decidable (n.properties.Distinct ∧ ∃ base, parts = [base] ∧
      base.properties = [] ∧ k.accepts base.kind = true ∧
      k.Suits base.fixedSize? precision scale))
  | reference r => inferInstanceAs (Decidable (Byte.dot ∉ r.name))

/-- A reference that nothing has bound. -/
def Unbound : Schema → Prop
  | reference r => r.binding = none
  | _ => True

/-- A schema as it was built or read. -/
def Fresh (s : Schema) : Prop := s.Everywhere fun t => t.Proper ∧ t.Unbound

theorem Fresh.proper {s : Schema} (h : s.Fresh) : s.Everywhere Proper := h.mono fun _ ht => ht.1

theorem fresh_reference {r : Reference} (hname : Byte.dot ∉ r.name) (hb : r.binding = none) :
    Fresh (.reference r) :=
  everywhere_reference_iff.mpr ⟨hname, hb⟩

theorem fresh_primitive {p : Primitive} {n : Note} (hd : n.properties.Distinct)
    (hm : (primitive p n).meaning? = none) : Fresh (.primitive p n) :=
  everywhere_primitive_iff.mpr ⟨⟨hd, hm⟩, trivial⟩

theorem fresh_plain (p : Primitive) : Fresh (.plain p) :=
  fresh_primitive Members.distinct_nil (meaning?_eq_none rfl)

theorem Fresh.mapNote {s : Schema} (h : s.Fresh) {f : Note → Note}
    (hf : (f s.note).properties = s.note.properties) : (s.mapNote f).Fresh := by
  have hmeaning : (s.mapNote f).meaning? = s.meaning? :=
    meaning?_congr (fun key _ => by simp [properties, hf]) (by simp) (by simp)
  cases s with
  | primitive p n =>
    obtain ⟨⟨hd, hm⟩, -⟩ := everywhere_primitive_iff.mp h
    exact fresh_primitive (hf ▸ hd) (hmeaning.trans hm)
  | record head e fields =>
    obtain ⟨⟨⟨hd, hrest⟩, -⟩, hinside⟩ := everywhere_record_iff.mp h
    exact everywhere_record_iff.mpr ⟨⟨⟨hf ▸ hd, hrest⟩, trivial⟩, hinside⟩
  | enumeration head symbols d =>
    obtain ⟨⟨hd, hrest⟩, -⟩ := everywhere_enumeration_iff.mp h
    exact everywhere_enumeration_iff.mpr ⟨⟨hf ▸ hd, hrest⟩, trivial⟩
  | fixed head size =>
    obtain ⟨⟨hd, hsize, hm⟩, -⟩ := everywhere_fixed_iff.mp h
    exact everywhere_fixed_iff.mpr ⟨⟨hf ▸ hd, hsize, hmeaning.trans hm⟩, trivial⟩
  | compound shape parts n =>
    obtain ⟨⟨hproper, -⟩, hinside⟩ := everywhere_compound_iff.mp h
    refine everywhere_compound_iff.mpr ⟨⟨?_, trivial⟩, hinside⟩
    have hp : (f n).properties = n.properties := hf
    cases shape <;> simpa only [Proper, hp] using hproper
  | reference r => exact everywhere_reference_iff.mpr (everywhere_reference_iff.mp h)

theorem fresh_logicalOver {k : LogicalKind} {precision scale : Nat} {properties : Members}
    {base : Schema} (hd : properties.Distinct) (hb : base.Fresh) (hnone : base.properties = [])
    (ha : k.accepts base.kind = true) (hs : k.Suits base.fixedSize? precision scale) :
    (logicalOver k precision scale properties base).Fresh := by
  refine everywhere_compound_iff.mpr ⟨⟨⟨hd, base, rfl, hnone, ha, hs⟩, trivial⟩, ?_⟩
  intro p hp
  rw [List.mem_singleton.mp hp]
  exact hb

/-- A type that becomes logical if its properties say so is as it has to be if its base without
properties is. -/
theorem fresh_promote {base : Schema} (hd : base.properties.Distinct)
    (hplain : (base.mapNote fun n => { n with properties := [] }).Fresh)
    (hkeep : base.meaning? = none → base.Fresh) : base.promote.Fresh := by
  rw [promote_eq]
  split
  · next hm => exact hkeep hm
  · next kind precision scale hm =>
    obtain ⟨ha, hp⟩ := meaning?_eq_some hm
    have hs := suits_of_logicalParameters? hp
    refine fresh_logicalOver (hd.without _) hplain ?_ (by simpa using ha) (by simpa using hs)
    simp [properties]

theorem fresh_promote_primitive {p : Primitive} {n : Note} (hd : n.properties.Distinct) :
    (primitive p n).promote.Fresh :=
  fresh_promote hd (fresh_primitive Members.distinct_nil (meaning?_eq_none rfl))
    (fresh_primitive hd)

theorem fresh_promote_fixed {h : Head} {size : Nat} (hd : h.properties.Distinct)
    (hsize : size < pow2 32) : (fixed h size).promote.Fresh :=
  fresh_promote hd
    (everywhere_fixed_iff.mpr ⟨⟨Members.distinct_nil, hsize, meaning?_eq_none rfl⟩, trivial⟩)
    fun hm => everywhere_fixed_iff.mpr ⟨⟨hd, hsize, hm⟩, trivial⟩

theorem isUnion_promote (base : Schema) (h : base.isUnion = false) :
    base.promote.isUnion = false := by
  rw [promote_eq]
  split
  · exact h
  · rfl

theorem full_promote_fixed (h : Head) (size : Nat) : (fixed h size).promote.full = h.full := by
  rw [promote_eq]
  split <;> rfl

theorem isNamed_promote_fixed (h : Head) (size : Nat) :
    (fixed h size).promote.isNamed = true := by
  rw [promote_eq]
  split <;> rfl

theorem inner_promote_primitive (p : Primitive) (n : Note) : (primitive p n).promote.Inner := by
  rw [promote_eq]
  split <;> rfl

theorem fresh_container {shape : Shape} (hshape : shape = .array ∨ shape = .map) {part : Schema}
    {n : Note} (hd : n.properties.Distinct) (hp : part.Fresh) (hi : part.Inner) :
    Fresh (.compound shape [part] n) := by
  refine everywhere_compound_iff.mpr ⟨⟨?_, trivial⟩, ?_⟩
  · rcases hshape with rfl | rfl <;> exact ⟨hd, part, rfl, hi⟩
  · intro p hm
    rw [List.mem_singleton.mp hm]
    exact hp

/-- A schema that may stand inside another one. -/
structure Part (s : Schema) : Prop where
  fresh : s.Fresh
  inner : s.Inner

/-- A schema that may be a branch of a union. -/
structure Branch (s : Schema) : Prop extends Part s where
  simple : s.isUnion = false

theorem fresh_union {isOptional : Bool} {parts : List Schema} {n : Note} (hn : n.properties = [])
    (hparts : ∀ p ∈ parts, p.Branch) (hkeys : (parts.map branchKey).Nodup) :
    Fresh (.compound (.union isOptional) parts n) :=
  everywhere_compound_iff.mpr
    ⟨⟨⟨hn, fun p hp => ⟨(hparts p hp).simple, (hparts p hp).inner⟩, hkeys⟩, trivial⟩,
      fun p hp => (hparts p hp).fresh⟩

end Schema

structure FieldOf.Fresh (f : Field) : Prop where
  distinct : f.properties.Distinct
  type : f.type.Part

/-- Fields whose names differ from each other and from those before them. -/
structure FreshFields (seen : List Text) (fields : List Field) : Prop where
  fresh : ∀ f ∈ fields, f.Fresh
  unseen : Unseen FieldOf.name seen fields

theorem freshFields_nil (seen : List Text) : FreshFields seen [] := ⟨by simp, unseen_nil⟩

theorem FreshFields.cons {seen : List Text} {f : Field} {fields : List Field} (hf : f.Fresh)
    (hnew : f.name ∉ seen) (h : FreshFields (f.name :: seen) fields) :
    FreshFields seen (f :: fields) :=
  ⟨List.forall_mem_cons.mpr ⟨hf, h.fresh⟩, h.unseen.cons hnew⟩

theorem Schema.fresh_record {h : Head} {e : Bool} {fields : List Field}
    (hd : h.properties.Distinct) (hfields : FreshFields [] fields) :
    Schema.Fresh (.record h e fields) := by
  refine everywhere_record_iff.mpr ⟨⟨⟨hd, hfields.unseen.1, ?_⟩, trivial⟩, ?_⟩
  · intro f hf
    exact ⟨(hfields.fresh f hf).distinct, (hfields.fresh f hf).type.inner⟩
  · intro f hf
    exact (hfields.fresh f hf).type.fresh

/-- What the parameters, the response, the errors and the properties of a message look like. -/
structure Message.Proper (m : Message) : Prop where
  distinct : m.properties.Distinct
  names : (m.request.map (·.name)).Nodup
  parameters : ∀ f ∈ m.request, f.properties.Distinct
  types : ∀ s ∈ m.types, s.Everywhere Schema.Proper ∧ s.Inner

instance : DecidablePred Message.Proper := fun m =>
  decidable_of_iff
    (m.properties.Distinct ∧ (m.request.map (·.name)).Nodup ∧
      (∀ f ∈ m.request, f.properties.Distinct) ∧
      ∀ s ∈ m.types, s.Everywhere Schema.Proper ∧ s.Inner)
    ⟨fun ⟨distinct, names, parameters, types⟩ => ⟨distinct, names, parameters, types⟩,
      fun h => ⟨h.distinct, h.names, h.parameters, h.types⟩⟩

structure Message.Fresh (m : Message) : Prop where
  proper : m.Proper
  types : ∀ s ∈ m.types, s.Fresh

theorem Message.fresh_of_parts {m : Message} (hd : m.properties.Distinct)
    (hrequest : FreshFields [] m.request) (hresponse : m.response.Part)
    (herrors : ∀ s ∈ m.errors.getD [], s.Part) : m.Fresh := by
  have htypes : ∀ s ∈ m.types, s.Part := by
    intro s hs
    rcases List.mem_append.mp hs with hs | hs
    · obtain ⟨f, hf, rfl⟩ := List.mem_map.mp hs
      exact (hrequest.fresh f hf).type
    · rcases List.mem_cons.mp hs with rfl | hs
      · exact hresponse
      · exact herrors s hs
  refine ⟨⟨hd, hrequest.unseen.1, ?_, ?_⟩, ?_⟩
  · intro f hf
    exact (hrequest.fresh f hf).distinct
  · intro s hs
    exact ⟨(htypes s hs).fresh.proper, (htypes s hs).inner⟩
  · intro s hs
    exact (htypes s hs).fresh

section Bind

namespace Schema

@[simp]
theorem fixedSize?_bind (place : Placement) (levels : Nat) (s : Schema) :
    (bind place levels s).fixedSize? = s.fixedSize? := by
  cases levels with
  | zero => simp
  | succ levels => cases s <;> simp [fixedSize?]

@[simp]
theorem branchKey_bind (place : Placement) (levels : Nat) (s : Schema) :
    (bind place levels s).branchKey = s.branchKey := by
  induction s using Schema.induct generalizing levels with
  | compound shape parts n ih =>
    cases levels with
    | zero => simp
    | succ levels =>
      rw [bind_compound]
      cases shape with
      | logical k precision scale =>
        cases parts with
        | nil => rfl
        | cons base rest => exact ih base List.mem_cons_self levels
      | _ => rfl
  | _ => cases levels <;> simp [branchKey]

theorem Proper.bind {s : Schema} (h : s.Proper) (place : Placement) (levels : Nat) :
    (s.bind place levels).Proper := by
  cases levels with
  | zero => simpa using h
  | succ levels =>
    cases s with
    | primitive p n => simpa using h
    | enumeration head symbols d => simpa using h
    | fixed head size => simpa using h
    | record head e fields =>
      obtain ⟨hd, hnames, hfields⟩ := h
      rw [bind_record]
      refine ⟨hd, by simpa [List.map_map, Function.comp_def] using hnames, ?_⟩
      intro f' hf'
      obtain ⟨f, hf, rfl⟩ := List.mem_map.mp hf'
      exact ⟨(hfields f hf).1, (isNamed_bind place levels f.type).trans (hfields f hf).2⟩
    | compound shape parts n =>
      rw [bind_compound]
      cases shape with
      | array =>
        obtain ⟨hd, part, rfl, hi⟩ := h
        exact ⟨hd, _, rfl, (isNamed_bind place levels part).trans hi⟩
      | map =>
        obtain ⟨hd, part, rfl, hi⟩ := h
        exact ⟨hd, _, rfl, (isNamed_bind place levels part).trans hi⟩
      | union o =>
        obtain ⟨hn, hparts, hkeys⟩ := h
        refine ⟨hn, ?_, by simpa [List.map_map, Function.comp_def] using hkeys⟩
        intro p' hp'
        obtain ⟨p, hp, rfl⟩ := List.mem_map.mp hp'
        exact ⟨(isUnion_bind place levels p).trans (hparts p hp).1,
          (isNamed_bind place levels p).trans (hparts p hp).2⟩
      | logical k precision scale =>
        obtain ⟨hd, base, rfl, hnone, ha, hs⟩ := h
        refine ⟨hd, _, rfl, ?_, ?_, ?_⟩
        · rw [properties, note_bind]
          exact hnone
        · rw [kind_bind]
          exact ha
        · rw [fixedSize?_bind]
          exact hs
    | reference r =>
      have hdot : Byte.dot ∉ r.name := h
      rw [bind_reference]
      change Byte.dot ∉ (r.bind place).name
      rwa [Reference.name_bind]

theorem everywhere_proper_bindAll {s : Schema} (h : s.Everywhere Proper) (place : Placement) :
    (s.bindAll place).Everywhere Proper := by
  intro depth t ho
  obtain ⟨t', ho', rfl⟩ := ho.of_bind
  exact (h depth t' ho').bind place _

end Schema

theorem Message.Proper.bindAll {m : Message} (h : m.Proper) (place : Placement) :
    (m.bindAll place).Proper := by
  refine ⟨h.distinct, ?_, ?_, ?_⟩
  · have hnames : (m.bindAll place).request.map (·.name) = m.request.map (·.name) := by
      simp [Message.bindAll, List.map_map, Function.comp_def]
    rw [hnames]
    exact h.names
  · intro f' hf'
    obtain ⟨f, hf, rfl⟩ := List.mem_map.mp hf'
    exact h.parameters f hf
  · intro s' hs'
    rw [Message.types_bindAll] at hs'
    obtain ⟨s, hs, rfl⟩ := List.mem_map.mp hs'
    obtain ⟨hp, hi⟩ := h.types s hs
    exact ⟨Schema.everywhere_proper_bindAll hp place, (Schema.isNamed_bind place _ s).trans hi⟩

end Bind

end AvroIdl
