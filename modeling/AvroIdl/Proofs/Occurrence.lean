import AvroIdl.Registry.Resolve

/-!
# Where a schema occurs

`t.Occurs depth s` says that `t` stands in `s` inside `depth` other schemas. What holds of every
schema that occurs in another one is proved by `Schema.induct`, and references, levels and binding
are told in terms of occurrences.
-/
namespace AvroIdl

namespace Schema

/-- Induction over the fields of records and the parts of compound schemas. -/
@[elab_as_elim]
theorem induct {P : Schema → Prop} (primitive : ∀ p n, P (.primitive p n))
    (record : ∀ h e fields, (∀ f ∈ fields, P f.type) → P (.record h e fields))
    (enumeration : ∀ h symbols d, P (.enumeration h symbols d)) (fixed : ∀ h n, P (.fixed h n))
    (compound : ∀ shape parts n, (∀ s ∈ parts, P s) → P (.compound shape parts n))
    (reference : ∀ r, P (.reference r)) (s : Schema) : P s :=
  @Schema.rec P (fun fields => ∀ f ∈ fields, P f.type) (fun parts => ∀ p ∈ parts, P p)
    (fun f => P f.type) primitive record enumeration fixed compound reference
    (by simp)
    (fun _ _ hf hs f h => by
      rcases List.mem_cons.mp h with rfl | h
      · exact hf
      · exact hs f h)
    (by simp)
    (fun _ _ hp hs p h => by
      rcases List.mem_cons.mp h with rfl | h
      · exact hp
      · exact hs p h)
    (fun _ _ _ _ _ _ _ _ h => h) s

/-- The schema `t` stands in another one, inside the given number of schemas. -/
inductive Occurs (t : Schema) : Nat → Schema → Prop
  | here : Occurs t 0 t
  | inField {h : Head} {e : Bool} {fields : List Field} {f : Field} {depth : Nat}
      (member : f ∈ fields) (inside : Occurs t depth f.type) :
      Occurs t (depth + 1) (.record h e fields)
  | inPart {shape : Shape} {parts : List Schema} {n : Note} {p : Schema} {depth : Nat}
      (member : p ∈ parts) (inside : Occurs t depth p) :
      Occurs t (depth + 1) (.compound shape parts n)

theorem occurs_zero_iff {t s : Schema} : t.Occurs 0 s ↔ t = s := by
  constructor
  · intro h
    cases h
    rfl
  · rintro rfl
    exact .here

theorem occurs_succ_record_iff {t : Schema} {depth : Nat} {h : Head} {e : Bool}
    {fields : List Field} :
    t.Occurs (depth + 1) (.record h e fields) ↔ ∃ f ∈ fields, t.Occurs depth f.type := by
  constructor
  · intro ho
    cases ho with
    | inField member inside => exact ⟨_, member, inside⟩
  · rintro ⟨f, member, inside⟩
    exact .inField member inside

theorem occurs_succ_compound_iff {t : Schema} {depth : Nat} {shape : Shape}
    {parts : List Schema} {n : Note} :
    t.Occurs (depth + 1) (.compound shape parts n) ↔ ∃ p ∈ parts, t.Occurs depth p := by
  constructor
  · intro ho
    cases ho with
    | inPart member inside => exact ⟨_, member, inside⟩
  · rintro ⟨p, member, inside⟩
    exact .inPart member inside

/-- The property holds of a schema and of all schemas inside it. -/
def Everywhere (P : Schema → Prop) (s : Schema) : Prop := ∀ depth t, t.Occurs depth s → P t

section Everywhere

variable {P Q : Schema → Prop}

theorem Everywhere.self {s : Schema} (h : s.Everywhere P) : P s := h 0 s .here

theorem Everywhere.mono {s : Schema} (h : s.Everywhere P) (hpq : ∀ t, P t → Q t) :
    s.Everywhere Q :=
  fun depth t ht => hpq t (h depth t ht)

theorem everywhere_record_iff {h : Head} {e : Bool} {fields : List Field} :
    (Schema.record h e fields).Everywhere P ↔
      P (.record h e fields) ∧ ∀ f ∈ fields, f.type.Everywhere P := by
  constructor
  · intro hp
    exact ⟨hp.self, fun f hf depth t ht => hp _ t (.inField hf ht)⟩
  · rintro ⟨hp, hfields⟩ depth t ht
    cases ht with
    | here => exact hp
    | inField member inside => exact hfields _ member _ t inside

theorem everywhere_compound_iff {shape : Shape} {parts : List Schema} {n : Note} :
    (Schema.compound shape parts n).Everywhere P ↔
      P (.compound shape parts n) ∧ ∀ p ∈ parts, p.Everywhere P := by
  constructor
  · intro hp
    exact ⟨hp.self, fun p hm depth t ht => hp _ t (.inPart hm ht)⟩
  · rintro ⟨hp, hparts⟩ depth t ht
    cases ht with
    | here => exact hp
    | inPart member inside => exact hparts _ member _ t inside

theorem everywhere_primitive_iff {p : Primitive} {n : Note} :
    (Schema.primitive p n).Everywhere P ↔ P (.primitive p n) := by
  refine ⟨fun hp => hp.self, fun hp depth t ht => ?_⟩
  cases ht
  exact hp

theorem everywhere_enumeration_iff {h : Head} {symbols : List Text} {d : Option Text} :
    (Schema.enumeration h symbols d).Everywhere P ↔ P (.enumeration h symbols d) := by
  refine ⟨fun hp => hp.self, fun hp depth t ht => ?_⟩
  cases ht
  exact hp

theorem everywhere_fixed_iff {h : Head} {size : Nat} :
    (Schema.fixed h size).Everywhere P ↔ P (.fixed h size) := by
  refine ⟨fun hp => hp.self, fun hp depth t ht => ?_⟩
  cases ht
  exact hp

theorem everywhere_reference_iff {r : Reference} :
    (Schema.reference r).Everywhere P ↔ P (.reference r) := by
  refine ⟨fun hp => hp.self, fun hp depth t ht => ?_⟩
  cases ht
  exact hp

mutual

/-- Whether a check succeeds on a schema and on all schemas inside it. -/
def all (p : Schema → Bool) : Schema → Bool
  | record h e fields => p (record h e fields) && allFields p fields
  | compound shape parts n => p (compound shape parts n) && allParts p parts
  | primitive q n => p (primitive q n)
  | enumeration h symbols d => p (enumeration h symbols d)
  | fixed h size => p (fixed h size)
  | reference r => p (reference r)

def allFields (p : Schema → Bool) : List (FieldOf Schema) → Bool
  | [] => true
  | ⟨_, type, _, _, _, _, _, _⟩ :: fields => all p type && allFields p fields

def allParts (p : Schema → Bool) : List Schema → Bool
  | [] => true
  | s :: parts => all p s && allParts p parts

end

theorem allFields_eq_all (p : Schema → Bool) (fields : List Field) :
    allFields p fields = fields.all fun f => f.type.all p := by
  induction fields with
  | nil => simp [allFields]
  | cons f fields ih => simp [allFields, ih]

theorem allParts_eq_all (p : Schema → Bool) (parts : List Schema) :
    allParts p parts = parts.all (all p) := by
  induction parts with
  | nil => simp [allParts]
  | cons s parts ih => simp [allParts, ih]

theorem all_eq_true_iff {p : Schema → Bool} {s : Schema} :
    s.all p = true ↔ s.Everywhere fun t => p t = true := by
  induction s using Schema.induct with
  | primitive q n => rw [everywhere_primitive_iff, all]
  | enumeration h symbols d => rw [everywhere_enumeration_iff, all]
  | fixed h size => rw [everywhere_fixed_iff, all]
  | reference r => rw [everywhere_reference_iff, all]
  | record h e fields ih =>
    rw [everywhere_record_iff, all, allFields_eq_all, Bool.and_eq_true, List.all_eq_true]
    exact and_congr_right fun _ => forall₂_congr ih
  | compound shape parts n ih =>
    rw [everywhere_compound_iff, all, allParts_eq_all, Bool.and_eq_true, List.all_eq_true]
    exact and_congr_right fun _ => forall₂_congr ih

instance [DecidablePred P] (s : Schema) : Decidable (s.Everywhere P) :=
  decidable_of_iff (s.all (decide <| P ·) = true) (by simp [all_eq_true_iff])

end Everywhere

end Schema

end AvroIdl
