import AvroIdl.Proofs.DefaultValidity

/-!
# Conforming defaults

`Conforms` is the structural relation between types and values that the check of defaults is
meant to decide; in contrast to `Valid`, a record may be left incomplete and a type that is not
known takes everything. The check follows references, so it may go on for longer than the type is
deep, and it stops at a fixed depth with the answer that the value fits. As long as the exploration
ends before that, it decides conformance: one level of the check and one level of the relation ask
the same of the levels below, and the number of levels carries the induction.
-/
namespace AvroIdl

namespace Default

/-- The value has the structure that the schema asks for. A lookup gives no type where it answers
with yet another reference. -/
inductive Conforms (lookup : Schema.Lookup) : Schema → Json → Prop
  | primitive {p : Primitive} {n : Note} {v : Json} (takes : p.Takes v) :
    Conforms lookup (.primitive p n) v
  | fixed {h : Head} {size : Nat} (s : Text) : Conforms lookup (.fixed h size) (.string s)
  | enumeration {h : Head} {symbols : List Text} {d : Option Text} {s : Text}
      (symbol : s ∈ symbols) : Conforms lookup (.enumeration h symbols d) (.string s)
  | array {parts : List Schema} {n : Note} {elements : List Json}
      (inner : ∀ e ∈ elements, ∀ part, parts.head? = some part → Conforms lookup part e) :
    Conforms lookup (.compound .array parts n) (.array elements)
  | map {parts : List Schema} {n : Note} {members : Members}
      (inner : ∀ m ∈ members, ∀ part, parts.head? = some part → Conforms lookup part m.2) :
    Conforms lookup (.compound .map parts n) (.object members)
  | logical {k : LogicalKind} {precision scale : Nat} {parts : List Schema} {n : Note} {v : Json}
      (base : ∀ part, parts.head? = some part → Conforms lookup part v) :
    Conforms lookup (.compound (.logical k precision scale) parts n) v
  | record {h : Head} {e : Bool} {fields : List Field} {members : Members}
      (present : ∀ f ∈ fields, ∀ v, members.get? f.name = some v → Conforms lookup f.type v) :
    Conforms lookup (.record h e fields) (.object members)
  | union {isOptional : Bool} {parts : List Schema} {n : Note} {v : Json} {branch : Schema}
      (member : branch ∈ parts) (takes : Conforms lookup branch v) :
    Conforms lookup (.compound (.union isOptional) parts n) v
  | known {r : Reference} {target : Schema} {v : Json} (denotes : lookup r = some target)
      (type : target.kind ≠ .reference) (takes : Conforms lookup target v) :
    Conforms lookup (.reference r) v
  | unknown {r : Reference} {v : Json}
      (none : ∀ target, lookup r = some target → target.kind = .reference) :
    Conforms lookup (.reference r) v

/-- What a type asks of a value itself, the values below it apart. -/
def Suits (lookup : Schema.Lookup) (s : Schema) (v : Json) : Prop :=
  match s.resolve? lookup with
  | some (.primitive p _) => p.Takes v
  | some (.fixed _ _) => ∃ t, v = .string t
  | some (.enumeration _ symbols _) => ∃ t ∈ symbols, v = .string t
  | some (.compound .array _ _) => ∃ elements, v = .array elements
  | some (.compound .map _ _) | some (.record _ _ _) => ∃ members, v = .object members
  | _ => True

/-- The pairs of a type and a value one level below a pair, in the order in which they are looked
at. -/
def below (lookup : Schema.Lookup) (s : Schema) (v : Json) : List (Schema × Json) :=
  match s.resolve? lookup, v with
  | some (.compound .array parts _), .array elements =>
    elements.flatMap fun e => parts.head?.toList.map fun part => (part, e)
  | some (.compound .map parts _), .object members =>
    members.flatMap fun m => parts.head?.toList.map fun part => (part, m.2)
  | some (.compound (.logical _ _ _) parts _), v => parts.head?.toList.map fun part => (part, v)
  | some (.compound (.union _) parts _), v => parts.map fun branch => (branch, v)
  | some (.record _ _ fields), .object members =>
    fields.filterMap fun f => (Members.get? members f.name).map fun w => (f.type, w)
  | _, _ => []

/-- The pair meets a union, which asks for one pair below it and not for all of them. -/
def AsksForOne (lookup : Schema.Lookup) (s : Schema) : Prop :=
  ∃ isOptional parts n, s.resolve? lookup = some (.compound (.union isOptional) parts n)

/-- One level of a relation between types and values. -/
def Level (lookup : Schema.Lookup) (P : Schema → Json → Prop) (s : Schema) (v : Json) : Prop :=
  Suits lookup s v ∧
    (AsksForOne lookup s → ∃ p ∈ below lookup s v, P p.1 p.2) ∧
    (¬AsksForOne lookup s → ∀ p ∈ below lookup s v, P p.1 p.2)

/-- A pair below another one is looked at unless one before it settles the question: at a union one
that conforms, and elsewhere one that does not. -/
def LookedAt (lookup : Schema.Lookup) (s : Schema) (v : Json) (p : Schema × Json) : Prop :=
  ∃ before after, below lookup s v = before ++ p :: after ∧
    ∀ q ∈ before, (Conforms lookup q.1 q.2 ↔ ¬AsksForOne lookup s)

/-- The pairs that are looked at nest no deeper below the pair than the given number of levels. -/
def StaysWithin (lookup : Schema.Lookup) : (depth : Nat) → Schema → Json → Prop
  | 0, s, v => ∀ p, ¬LookedAt lookup s v p
  | depth + 1, s, v => ∀ p, LookedAt lookup s v p → StaysWithin lookup depth p.1 p.2

/-- All pairs, looked at or not, nest no deeper than the given number of levels. -/
def nestsWithin (lookup : Schema.Lookup) : (depth : Nat) → Schema → Json → Bool
  | 0, s, v => (below lookup s v).isEmpty
  | depth + 1, s, v => (below lookup s v).all fun p => nestsWithin lookup depth p.1 p.2

section

variable {lookup : Schema.Lookup} {levels depth : Nat} {s target : Schema} {v : Json}

theorem staysWithin_of_nestsWithin (h : nestsWithin lookup depth s v = true) :
    StaysWithin lookup depth s v := by
  induction depth generalizing s v with
  | zero =>
    rintro p ⟨before, after, hbelow, -⟩
    rw [nestsWithin, hbelow] at h
    simp at h
  | succ depth ih =>
    rintro p ⟨before, after, hbelow, -⟩
    refine ih (List.all_eq_true.mp h p ?_)
    simp [hbelow]

theorem asksForOne_iff (h : s.resolve? lookup = some target) :
    AsksForOne lookup s ↔ ∃ isOptional parts n, target = .compound (.union isOptional) parts n := by
  simp only [AsksForOne, h, Option.some.injEq]

section Level

variable {P : Schema → Json → Prop}

theorem level_of_unknown
    (h : ∀ target, s.resolve? lookup = some target → target.kind = .reference) :
    Level lookup P s v := by
  have hnot : ¬AsksForOne lookup s := by
    rintro ⟨isOptional, parts, n, hunion⟩
    cases h _ hunion
  cases hres : s.resolve? lookup with
  | none => simp [Level, Suits, below, hres, hnot]
  | some target =>
    cases target with
    | reference r => simp [Level, Suits, below, hres, hnot]
    | compound shape parts n =>
      have hkind := h _ hres
      cases shape <;> cases hkind
    | _ => cases h _ hres

theorem level_iff_of_all (hone : ¬AsksForOne lookup s) (hsuits : Suits lookup s v) :
    Level lookup P s v ↔ ∀ p ∈ below lookup s v, P p.1 p.2 := by
  simp only [Level, hone, hsuits, false_implies, not_false_eq_true, true_implies, true_and]

theorem level_primitive_iff {p : Primitive} {n : Note}
    (h : s.resolve? lookup = some (.primitive p n)) : Level lookup P s v ↔ p.Takes v := by
  simp [Level, Suits, below, asksForOne_iff h, h]

theorem level_fixed_iff {head : Head} {size : Nat}
    (h : s.resolve? lookup = some (.fixed head size)) :
    Level lookup P s v ↔ ∃ t, v = .string t := by
  simp [Level, Suits, below, asksForOne_iff h, h]

theorem level_enumeration_iff {head : Head} {symbols : List Text} {d : Option Text}
    (h : s.resolve? lookup = some (.enumeration head symbols d)) :
    Level lookup P s v ↔ ∃ t, v = .string t ∧ t ∈ symbols := by
  simp [Level, Suits, below, asksForOne_iff h, h, and_comm]

theorem level_union_iff {isOptional : Bool} {parts : List Schema} {n : Note}
    (h : s.resolve? lookup = some (.compound (.union isOptional) parts n)) :
    Level lookup P s v ↔ ∃ branch ∈ parts, P branch v := by
  have hone : AsksForOne lookup s := ⟨isOptional, parts, n, h⟩
  have hsuits : Suits lookup s v := by simp [Suits, h]
  have hbelow : below lookup s v = parts.map fun branch => (branch, v) := by simp only [below, h]
  simp only [Level, hsuits, hone, hbelow, List.mem_map]
  grind

theorem level_logical_iff {k : LogicalKind} {precision scale : Nat} {parts : List Schema} {n : Note}
    (h : s.resolve? lookup = some (.compound (.logical k precision scale) parts n)) :
    Level lookup P s v ↔ ∀ part, parts.head? = some part → P part v := by
  simp [Level, Suits, below, asksForOne_iff h, h]

theorem level_array_iff {parts : List Schema} {n : Note}
    (h : s.resolve? lookup = some (.compound .array parts n)) :
    Level lookup P s v ↔ ∃ elements, v = .array elements ∧
      ∀ e ∈ elements, ∀ part, parts.head? = some part → P part e := by
  cases v with
  | array elements =>
    have hone : ¬AsksForOne lookup s := by simp [asksForOne_iff h]
    have hsuits : Suits lookup s (.array elements) := by simp [Suits, h]
    rw [level_iff_of_all hone hsuits]
    simp only [below, h, List.mem_flatMap, List.mem_map, Option.mem_toList, Json.array.injEq,
      exists_eq_left']
    constructor
    · intro hP x hx part hp
      exact hP (part, _) ⟨x, hx, part, hp, rfl⟩
    · rintro hP _ ⟨x, hx, part, hp, rfl⟩
      exact hP x hx part hp
  | _ => simp [Level, Suits, h]

theorem level_map_iff {parts : List Schema} {n : Note}
    (h : s.resolve? lookup = some (.compound .map parts n)) :
    Level lookup P s v ↔ ∃ members, v = .object members ∧
      ∀ m ∈ members, ∀ part, parts.head? = some part → P part m.2 := by
  cases v with
  | object members =>
    have hone : ¬AsksForOne lookup s := by simp [asksForOne_iff h]
    have hsuits : Suits lookup s (.object members) := by simp [Suits, h]
    rw [level_iff_of_all hone hsuits]
    simp only [below, h, List.mem_flatMap, List.mem_map, Option.mem_toList, Json.object.injEq,
      exists_eq_left']
    constructor
    · intro hP x hx part hp
      exact hP (part, _) ⟨x, hx, part, hp, rfl⟩
    · rintro hP _ ⟨x, hx, part, hp, rfl⟩
      exact hP x hx part hp
  | _ => simp [Level, Suits, h]

theorem level_record_iff {head : Head} {e : Bool} {fields : List Field}
    (h : s.resolve? lookup = some (.record head e fields)) :
    Level lookup P s v ↔ ∃ members, v = .object members ∧
      ∀ f ∈ fields, ∀ w, Members.get? members f.name = some w → P f.type w := by
  cases v with
  | object members =>
    have hone : ¬AsksForOne lookup s := by simp [asksForOne_iff h]
    have hsuits : Suits lookup s (.object members) := by simp [Suits, h]
    rw [level_iff_of_all hone hsuits]
    simp only [below, h, List.mem_filterMap, Option.map_eq_some_iff, Json.object.injEq,
      exists_eq_left']
    constructor
    · intro hP f hf w hw
      exact hP (f.type, w) ⟨f, hf, w, hw, rfl⟩
    · rintro hP _ ⟨f, hf, w, hw, rfl⟩
      exact hP f hf w hw
  | _ => simp [Level, Suits, h]

end Level

/-- One level of the check asks of the levels below what one level of the relation asks. -/
theorem mismatch_level_iff :
    mismatchWithin? lookup (levels + 1) s v = none ↔
      Level lookup (fun t w => mismatchWithin? lookup levels t w = none) s v := by
  cases hres : s.resolve? lookup with
  | none =>
    have hlevel : Level lookup (fun t w => mismatchWithin? lookup levels t w = none) s v :=
      level_of_unknown (by simp [hres])
    simp [mismatchWithin?, hres, hlevel]
  | some target =>
    cases target with
    | reference r =>
      have hlevel : Level lookup (fun t w => mismatchWithin? lookup levels t w = none) s v :=
        level_of_unknown (by simp [hres, Schema.kind])
      simp [mismatchWithin?, hres, hlevel]
    | primitive p n =>
      rw [(checks_congr (t := .primitive p n) hres v).1, level_primitive_iff hres]
      exact primitiveMismatch?_eq_none_iff
    | fixed head size =>
      rw [(checks_congr (t := .fixed head size) hres v).1, level_fixed_iff hres]
      cases v <;> simp [mismatchWithin?, Schema.resolve?, Json.isString, Json.string?]
    | enumeration head symbols d =>
      rw [(checks_congr (t := .enumeration head symbols d) hres v).1, level_enumeration_iff hres]
      cases v <;> simp [mismatchWithin?, Schema.resolve?, symbolMismatch?]
    | record head e fields =>
      rw [(checks_congr (t := .record head e fields) hres v).1, level_record_iff hres]
      cases v with
      | object members => simp only [mismatch_record_iff, Json.object.injEq, exists_eq_left']
      | _ => simp [mismatchWithin?, Schema.resolve?]
    | compound shape parts n =>
      rw [(checks_congr (t := .compound shape parts n) hres v).1]
      cases shape with
      | array =>
        rw [level_array_iff hres]
        cases v with
        | array elements => simp only [mismatch_array_iff, Json.array.injEq, exists_eq_left']
        | _ => simp [mismatchWithin?, Schema.resolve?]
      | map =>
        rw [level_map_iff hres]
        cases v with
        | object members => simp only [mismatch_map_iff, Json.object.injEq, exists_eq_left']
        | _ => simp [mismatchWithin?, Schema.resolve?]
      | logical k precision scale => rw [level_logical_iff hres, mismatch_logical_iff]
      | union isOptional => rw [level_union_iff hres, mismatch_union_iff]

theorem resolve?_self (h : target.kind ≠ .reference) : target.resolve? lookup = some target := by
  cases target with
  | reference r => exact absurd rfl h
  | _ => rfl

theorem level_congr {P : Schema → Json → Prop} {t : Schema}
    (h : s.resolve? lookup = t.resolve? lookup) : Level lookup P s v ↔ Level lookup P t v := by
  simp only [Level, Suits, AsksForOne, below, h]

theorem conforms_iff_of_resolve (h : s.resolve? lookup = some target)
    (ht : target.kind ≠ .reference) : Conforms lookup s v ↔ Conforms lookup target v := by
  cases s with
  | reference r =>
    constructor
    · intro hc
      cases hc with
      | known denotes _ takes =>
        cases h.symm.trans denotes
        exact takes
      | unknown none => exact absurd (none _ h) ht
    · exact .known h ht
  | _ =>
    cases h
    exact Iff.rfl

theorem Conforms.level (h : Conforms lookup s v) : Level lookup (Conforms lookup) s v := by
  induction h with
  | primitive takes => exact (level_primitive_iff rfl).mpr takes
  | fixed t => exact (level_fixed_iff rfl).mpr ⟨t, rfl⟩
  | enumeration symbol => exact (level_enumeration_iff rfl).mpr ⟨_, rfl, symbol⟩
  | array inner => exact (level_array_iff rfl).mpr ⟨_, rfl, inner⟩
  | map inner => exact (level_map_iff rfl).mpr ⟨_, rfl, inner⟩
  | logical base => exact (level_logical_iff rfl).mpr base
  | record present => exact (level_record_iff rfl).mpr ⟨_, rfl, present⟩
  | union member takes => exact (level_union_iff rfl).mpr ⟨_, member, takes⟩
  | @known r target v denotes type _ ih =>
    have hres : (Schema.reference r).resolve? lookup = some target := denotes
    exact (level_congr (hres.trans (resolve?_self type).symm)).mpr ih
  | unknown none => exact level_of_unknown none

/-- Conformance asks of a pair what one level of it asks. -/
theorem conforms_level_iff : Conforms lookup s v ↔ Level lookup (Conforms lookup) s v := by
  refine ⟨Conforms.level, fun h => ?_⟩
  by_cases hknown : ∃ target, s.resolve? lookup = some target ∧ target.kind ≠ .reference
  · obtain ⟨target, hres, hkind⟩ := hknown
    rw [conforms_iff_of_resolve hres hkind]
    rw [level_congr (hres.trans (resolve?_self hkind).symm)] at h
    cases target with
    | primitive p n => exact .primitive ((level_primitive_iff rfl).mp h)
    | fixed head size =>
      obtain ⟨t, rfl⟩ := (level_fixed_iff rfl).mp h
      exact .fixed t
    | enumeration head symbols d =>
      obtain ⟨t, rfl, ht⟩ := (level_enumeration_iff rfl).mp h
      exact .enumeration ht
    | record head e fields =>
      obtain ⟨members, rfl, hm⟩ := (level_record_iff rfl).mp h
      exact .record hm
    | compound shape parts n =>
      cases shape with
      | array =>
        obtain ⟨elements, rfl, he⟩ := (level_array_iff rfl).mp h
        exact .array he
      | map =>
        obtain ⟨members, rfl, hm⟩ := (level_map_iff rfl).mp h
        exact .map hm
      | logical k precision scale => exact .logical ((level_logical_iff rfl).mp h)
      | union isOptional =>
        obtain ⟨branch, hb, hc⟩ := (level_union_iff rfl).mp h
        exact .union hb hc
    | reference r => exact absurd rfl hkind
  · have hunknown : ∀ target, s.resolve? lookup = some target → target.kind = .reference := by
      intro target hres
      exact Classical.byContradiction fun hkind => hknown ⟨target, hres, hkind⟩
    cases s with
    | reference r => exact .unknown hunknown
    | compound shape parts n =>
      have hkind := hunknown _ rfl
      cases shape <;> cases hkind
    | _ => cases hunknown _ rfl

theorem Level.mono {P Q : Schema → Json → Prop} (h : Level lookup P s v)
    (hPQ : ∀ p ∈ below lookup s v, P p.1 p.2 → Q p.1 p.2) : Level lookup Q s v := by
  refine ⟨h.1, ?_, ?_⟩
  · intro hone
    obtain ⟨p, hp, hP⟩ := h.2.1 hone
    exact ⟨p, hp, hPQ p hp hP⟩
  · intro hall p hp
    exact hPQ p hp (h.2.2 hall p hp)

theorem fits_of_conforms (h : Conforms lookup s v) (levels : Nat) :
    mismatchWithin? lookup levels s v = none := by
  induction levels generalizing s v with
  | zero => rfl
  | succ levels ih =>
    rw [mismatch_level_iff]
    exact h.level.mono fun p _ hp => ih hp

theorem LookedAt.mem {p : Schema × Json} (h : LookedAt lookup s v p) : p ∈ below lookup s v := by
  obtain ⟨before, after, hbelow, -⟩ := h
  simp [hbelow]

/-- If pairs below a pair settle the question, the first of them is looked at. -/
theorem exists_lookedAt {p : Schema × Json} (hp : p ∈ below lookup s v)
    (hsettles : Conforms lookup p.1 p.2 ↔ AsksForOne lookup s) :
    ∃ q, LookedAt lookup s v q ∧ (Conforms lookup q.1 q.2 ↔ AsksForOne lookup s) := by
  classical
  have hsome : ((below lookup s v).find? fun q =>
      Conforms lookup q.1 q.2 ↔ AsksForOne lookup s).isSome = true := by
    rw [List.find?_isSome]
    exact ⟨p, hp, by simpa using hsettles⟩
  obtain ⟨q, hq⟩ := Option.isSome_iff_exists.mp hsome
  rw [List.find?_eq_some_iff_append] at hq
  obtain ⟨hsettled, before, after, heq, hbefore⟩ := hq
  refine ⟨q, ⟨before, after, heq, ?_⟩, by simpa using hsettled⟩
  intro r hr
  have hnot := hbefore r hr
  simp only [Bool.not_eq_true', decide_eq_false_iff_not] at hnot
  grind

/-- A level that trusts the pairs it looks at, and is right about them, is right. -/
theorem conforms_of_lookedAt {P : Schema → Json → Prop} (h : Level lookup P s v)
    (hright : ∀ q, LookedAt lookup s v q → P q.1 q.2 → Conforms lookup q.1 q.2) :
    Conforms lookup s v := by
  refine conforms_level_iff.mpr ⟨h.1, ?_, ?_⟩
  · intro hone
    refine Classical.byContradiction fun hnone => ?_
    obtain ⟨p, hp, hP⟩ := h.2.1 hone
    obtain ⟨before, after, hbelow⟩ := List.append_of_mem hp
    -- no branch before it conforms, so the check comes to the branch that it accepts
    refine hnone ⟨p, hp, hright p ⟨before, after, hbelow, fun q hq => ?_⟩ hP⟩
    have hq' : ¬Conforms lookup q.1 q.2 := fun hc => hnone ⟨q, by simp [hbelow, hq], hc⟩
    simp [hq', hone]
  · intro hall p hp
    refine Classical.byContradiction fun hc => ?_
    obtain ⟨q, hq, hsettled⟩ := exists_lookedAt hp (iff_of_false hc hall)
    exact hall (hsettled.mp (hright q hq (h.2.2 hall q hq.mem)))

/-- As long as the exploration ends before the last level, the check decides conformance. -/
theorem fits_iff_conforms (h : StaysWithin lookup depth s v) :
    mismatchWithin? lookup (depth + 1) s v = none ↔ Conforms lookup s v := by
  refine ⟨fun hfits => ?_, fun hc => fits_of_conforms hc _⟩
  induction depth generalizing s v with
  | zero => exact conforms_of_lookedAt (mismatch_level_iff.mp hfits) fun q hq => absurd hq (h q)
  | succ depth ih =>
    exact conforms_of_lookedAt (mismatch_level_iff.mp hfits) fun q hq hP => ih (h q hq) hP

theorem Mismatch.message_ne_nil (m : Mismatch) : m.message ≠ [] := by
  have hexpected : ("expected " : Text) ≠ [] := by decide
  have hint : ("expected int, got integer " : Text) ≠ [] := by decide
  have hlong : ("expected long, got integer " : Text) ≠ [] := by decide
  have hsymbol : ("expected a symbol of " : Text) ≠ [] := by decide
  have hfield : ("field '" : Text) ≠ [] := by decide
  cases m <;> simp [Mismatch.message, hexpected, hint, hlong, hsymbol, hfield]

/-- The check of a default decides conformance wherever its exploration nests no more than 256
levels below the default: it finds nothing exactly in a value that conforms, and else has something
to say. -/
theorem mismatch?_decides_conforms (h : StaysWithin lookup 256 s v) :
    (mismatch? lookup s v = none ↔ Conforms lookup s v) ∧
      (¬Conforms lookup s v → ∃ m, mismatch? lookup s v = some m ∧ m.message ≠ []) := by
  have hiff : mismatch? lookup s v = none ↔ Conforms lookup s v := fits_iff_conforms h
  refine ⟨hiff, fun hc => ?_⟩
  obtain ⟨m, hm⟩ := Option.ne_none_iff_exists'.mp fun hnone => hc (hiff.mp hnone)
  exact ⟨m, hm, m.message_ne_nil⟩

end

/-- A list of numbers as a chain of records; the type refers to itself. -/
def chain : Schema :=
  .record { name := "Node" } false
    [{ name := "value", type := .plain .int },
      { name := "next",
        type := .compound (.union true) [.plain .null, .reference { name := "Node" }] {} }]

def chainLookup : Schema.Lookup := fun r => if r.name = "Node" then some chain else none

def chainValue (last : Json) : Json :=
  .object [("value", .integer 1), ("next", .object [("value", last), ("next", .null)])]

theorem mismatch?_decides_chain :
    StaysWithin chainLookup 256 chain (chainValue (.integer 2)) ∧
      Conforms chainLookup chain (chainValue (.integer 2)) ∧
      StaysWithin chainLookup 256 chain (chainValue (.string "2")) ∧
      ¬Conforms chainLookup chain (chainValue (.string "2")) := by
  have hnumber : StaysWithin chainLookup 256 chain (chainValue (.integer 2)) :=
    staysWithin_of_nestsWithin (by decide)
  have hstring : StaysWithin chainLookup 256 chain (chainValue (.string "2")) :=
    staysWithin_of_nestsWithin (by decide)
  refine ⟨hnumber, (mismatch?_decides_conforms hnumber).1.mp (by decide), hstring, ?_⟩
  rw [← (mismatch?_decides_conforms hstring).1]
  decide

end Default

end AvroIdl
