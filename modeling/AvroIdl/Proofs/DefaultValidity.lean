import AvroIdl.Proofs.Binding

/-!
# Valid defaults

`Valid` says which JSON values a schema takes. The two checks of defaults decide it everywhere but
at unions, where they may be satisfied by different branches, and below the levels that they look
at. So a default that passes both is valid exactly if it reads every union by one branch.
-/
namespace AvroIdl

/-- The values that a primitive type takes. -/
def Primitive.Takes : Primitive → Json → Prop
  | .null, v => v = .null
  | .boolean, v => ∃ b, v = .bool b
  | .int, v => ∃ i, v = .integer i ∧ -0x80000000 ≤ i ∧ i < 0x80000000
  | .long, v => ∃ i, v = .integer i ∧ -0x8000000000000000 ≤ i ∧ i < 0x8000000000000000
  | .float, v | .double, v =>
    (∃ i, v = .integer i) ∨ (∃ x, v = .float x) ∨
      ∃ s, v = .string s ∧ (s = "NaN" ∨ s = "Infinity" ∨ s = "-Infinity")
  | .bytes, v | .string, v => ∃ s, v = .string s

namespace Default

/-- The values that a schema takes; a reference takes what the type that it denotes takes. -/
inductive Valid (lookup : Schema.Lookup) : Schema → Json → Prop
  | primitive {p : Primitive} {n : Note} {v : Json} (takes : p.Takes v) :
    Valid lookup (.primitive p n) v
  | fixed {h : Head} {size : Nat} (s : Text) : Valid lookup (.fixed h size) (.string s)
  | enumeration {h : Head} {symbols : List Text} {d : Option Text} {s : Text}
      (symbol : s ∈ symbols) : Valid lookup (.enumeration h symbols d) (.string s)
  | array {parts : List Schema} {n : Note} {elements : List Json}
      (inner : ∀ e ∈ elements, ∀ part, parts.head? = some part → Valid lookup part e) :
    Valid lookup (.compound .array parts n) (.array elements)
  | map {parts : List Schema} {n : Note} {members : Members}
      (inner : ∀ m ∈ members, ∀ part, parts.head? = some part → Valid lookup part m.2) :
    Valid lookup (.compound .map parts n) (.object members)
  | logical {k : LogicalKind} {precision scale : Nat} {parts : List Schema} {n : Note} {v : Json}
      (base : ∀ part, parts.head? = some part → Valid lookup part v) :
    Valid lookup (.compound (.logical k precision scale) parts n) v
  | record {h : Head} {e : Bool} {fields : List Field} {members : Members}
      (present : ∀ f ∈ fields, ∀ v, members.get? f.name = some v → Valid lookup f.type v)
      (absent : ∀ f ∈ fields, members.get? f.name = none → f.default.isSome = true) :
    Valid lookup (.record h e fields) (.object members)
  | union {isOptional : Bool} {parts : List Schema} {n : Note} {v : Json} {branch : Schema}
      (member : branch ∈ parts) (takes : Valid lookup branch v) :
    Valid lookup (.compound (.union isOptional) parts n) v
  | reference {r : Reference} {target : Schema} {v : Json} (denotes : lookup r = some target)
      (takes : Valid lookup target v) : Valid lookup (.reference r) v

section

variable {lookup : Schema.Lookup}

theorem valid_primitive_iff {p : Primitive} {n : Note} {v : Json} :
    Valid lookup (.primitive p n) v ↔ p.Takes v := by
  constructor
  · intro h
    cases h with
    | primitive takes => exact takes
  · exact .primitive

theorem valid_array_iff {parts : List Schema} {n : Note} {elements : List Json} :
    Valid lookup (.compound .array parts n) (.array elements) ↔
      ∀ e ∈ elements, ∀ part, parts.head? = some part → Valid lookup part e := by
  constructor
  · intro h
    cases h with
    | array inner => exact inner
  · exact .array

theorem valid_map_iff {parts : List Schema} {n : Note} {members : Members} :
    Valid lookup (.compound .map parts n) (.object members) ↔
      ∀ m ∈ members, ∀ part, parts.head? = some part → Valid lookup part m.2 := by
  constructor
  · intro h
    cases h with
    | map inner => exact inner
  · exact .map

theorem valid_logical_iff {k : LogicalKind} {precision scale : Nat} {parts : List Schema}
    {n : Note} {v : Json} :
    Valid lookup (.compound (.logical k precision scale) parts n) v ↔
      ∀ part, parts.head? = some part → Valid lookup part v := by
  constructor
  · intro h
    cases h with
    | logical base => exact base
  · exact .logical

theorem valid_record_iff {h : Head} {e : Bool} {fields : List Field} {members : Members} :
    Valid lookup (.record h e fields) (.object members) ↔
      (∀ f ∈ fields, ∀ v, members.get? f.name = some v → Valid lookup f.type v) ∧
        ∀ f ∈ fields, members.get? f.name = none → f.default.isSome = true := by
  constructor
  · intro hv
    cases hv with
    | record present absent => exact ⟨present, absent⟩
  · rintro ⟨present, absent⟩
    exact .record present absent

theorem valid_union_iff {isOptional : Bool} {parts : List Schema} {n : Note} {v : Json} :
    Valid lookup (.compound (.union isOptional) parts n) v ↔
      ∃ branch ∈ parts, Valid lookup branch v := by
  constructor
  · intro h
    cases h with
    | union member takes => exact ⟨_, member, takes⟩
  · rintro ⟨branch, member, takes⟩
    exact .union member takes

theorem valid_iff_of_resolve {s target : Schema} {v : Json}
    (h : s.resolve? lookup = some target) : Valid lookup s v ↔ Valid lookup target v := by
  cases s with
  | reference r =>
    constructor
    · intro hv
      cases hv with
      | reference denotes takes =>
        cases h.symm.trans denotes
        exact takes
    · exact .reference h
  | _ =>
    cases h
    exact Iff.rfl

theorem primitiveMismatch?_eq_none_iff {target : Schema} {p : Primitive} {v : Json} :
    primitiveMismatch? target p v = none ↔ p.Takes v := by
  have h31 : ((pow2 31 : Nat) : Int) = 0x80000000 := by decide
  have h63 : ((pow2 63 : Nat) : Int) = 0x8000000000000000 := by decide
  unfold primitiveMismatch?
  cases p <;> cases v <;> simp [fitsPrimitive, Primitive.Takes, floatWords, h31, h63]
  -- what is left are the words for values that are not finite
  all_goals grind

end

/-- Every record in a value that fits has its fields, and every union in it is read by one branch
that fits; what lies below the levels is valid. -/
def Whole (lookup : Schema.Lookup) : (levels : Nat) → Schema → Json → Prop
  | 0, s, v => Valid lookup s v
  | levels + 1, s, v =>
    match s.resolve? lookup with
    | none => Valid lookup s v
    | some target =>
      match target, v with
      | .compound .array parts _, .array elements =>
        ∀ e ∈ elements, ∀ part, parts.head? = some part → Whole lookup levels part e
      | .compound .map parts _, .object members =>
        ∀ m ∈ members, ∀ part, parts.head? = some part → Whole lookup levels part m.2
      | .compound (.logical _ _ _) parts _, v =>
        ∀ part, parts.head? = some part → Whole lookup levels part v
      | .record _ _ fields, .object members =>
        (∀ f ∈ fields, ∀ w, Members.get? members f.name = some w → Whole lookup levels f.type w) ∧
          ∀ f ∈ fields, Members.get? members f.name = none → f.default.isSome = true
      | .compound (.union _) parts _, v =>
        ∃ branch ∈ parts, mismatchWithin? lookup levels branch v = none ∧
          Whole lookup levels branch v
      | .reference r, v => Valid lookup (.reference r) v
      | _, _ => True

/-- Wherever the value meets a union or a logical type, one branch or the base takes it as a whole;
what lies below the levels is valid. -/
def OneBranch (lookup : Schema.Lookup) : (levels : Nat) → Schema → Json → Prop
  | 0, s, v => Valid lookup s v
  | levels + 1, s, v =>
    match s.resolve? lookup with
    | none => Valid lookup s v
    | some target =>
      match target, v with
      | .compound .array parts _, .array elements =>
        ∀ e ∈ elements, ∀ part, parts.head? = some part → OneBranch lookup levels part e
      | .compound .map parts _, .object members =>
        ∀ m ∈ members, ∀ part, parts.head? = some part → OneBranch lookup levels part m.2
      | .record _ _ fields, .object members =>
        ∀ f ∈ fields, ∀ w, Members.get? members f.name = some w → OneBranch lookup levels f.type w
      | .compound (.logical _ _ _) _ _, _ | .compound (.union _) _ _, _ | .reference _, _ =>
        Whole lookup (levels + 1) s v
      | _, _ => True

section

variable {lookup : Schema.Lookup} {levels : Nat}

theorem mismatch_array_iff {parts : List Schema} {n : Note} {elements : List Json} :
    mismatchWithin? lookup (levels + 1) (.compound .array parts n) (.array elements) = none ↔
      ∀ e ∈ elements, ∀ part, parts.head? = some part →
        mismatchWithin? lookup levels part e = none := by
  change elements.findSome? (fun e =>
    parts.head?.bind fun s => mismatchWithin? lookup levels s e) = none ↔ _
  simp only [List.findSome?_eq_none_iff, Option.bind_eq_none_iff]

theorem mismatch_map_iff {parts : List Schema} {n : Note} {members : Members} :
    mismatchWithin? lookup (levels + 1) (.compound .map parts n) (.object members) = none ↔
      ∀ m ∈ members, ∀ part, parts.head? = some part →
        mismatchWithin? lookup levels part m.2 = none := by
  change members.findSome? (fun m =>
    parts.head?.bind fun s => mismatchWithin? lookup levels s m.2) = none ↔ _
  simp only [List.findSome?_eq_none_iff, Option.bind_eq_none_iff]

theorem mismatch_logical_iff {k : LogicalKind} {precision scale : Nat} {parts : List Schema}
    {n : Note} {v : Json} :
    mismatchWithin? lookup (levels + 1) (.compound (.logical k precision scale) parts n) v = none ↔
      ∀ part, parts.head? = some part → mismatchWithin? lookup levels part v = none := by
  change (parts.head?.bind fun s => mismatchWithin? lookup levels s v) = none ↔ _
  rw [Option.bind_eq_none_iff]

theorem mismatch_record_iff {h : Head} {e : Bool} {fields : List Field} {members : Members} :
    mismatchWithin? lookup (levels + 1) (.record h e fields) (.object members) = none ↔
      ∀ f ∈ fields, ∀ v, members.get? f.name = some v →
        mismatchWithin? lookup levels f.type v = none := by
  change fields.findSome? (fun f => (members.get? f.name).bind fun v =>
    (mismatchWithin? lookup levels f.type v).map (Mismatch.inField f.name h.name)) = none ↔ _
  simp only [List.findSome?_eq_none_iff, Option.bind_eq_none_iff, Option.map_eq_none_iff]

theorem mismatch_union_iff {isOptional : Bool} {parts : List Schema} {n : Note} {v : Json} :
    mismatchWithin? lookup (levels + 1) (.compound (.union isOptional) parts n) v = none ↔
      ∃ branch ∈ parts, mismatchWithin? lookup levels branch v = none := by
  change (if parts.any fun s => (mismatchWithin? lookup levels s v).isNone then none
    else some (Mismatch.wrongType (.compound (.union isOptional) parts n) v)) = none ↔ _
  simp [List.any_eq_true, Option.isNone_iff_eq_none]

theorem missing_array_iff {parts : List Schema} {n : Note} {elements : List Json} :
    missingWithin? lookup (levels + 1) (.compound .array parts n) (.array elements) = none ↔
      ∀ e ∈ elements, ∀ part, parts.head? = some part →
        missingWithin? lookup levels part e = none := by
  change elements.findSome? (fun e =>
    parts.head?.bind fun s => missingWithin? lookup levels s e) = none ↔ _
  simp only [List.findSome?_eq_none_iff, Option.bind_eq_none_iff]

theorem missing_map_iff {parts : List Schema} {n : Note} {members : Members} :
    missingWithin? lookup (levels + 1) (.compound .map parts n) (.object members) = none ↔
      ∀ m ∈ members, ∀ part, parts.head? = some part →
        missingWithin? lookup levels part m.2 = none := by
  change members.findSome? (fun m =>
    parts.head?.bind fun s => missingWithin? lookup levels s m.2) = none ↔ _
  simp only [List.findSome?_eq_none_iff, Option.bind_eq_none_iff]

theorem missing_record_iff {h : Head} {e : Bool} {fields : List Field} {members : Members} :
    missingWithin? lookup (levels + 1) (.record h e fields) (.object members) = none ↔
      (∀ f ∈ fields, ∀ v, members.get? f.name = some v →
        missingWithin? lookup levels f.type v = none) ∧
        ∀ f ∈ fields, members.get? f.name = none → f.default.isSome = true := by
  have hstep : missingWithin? lookup (levels + 1) (.record h e fields) (.object members) =
      fields.findSome? _ := rfl
  rw [hstep, List.findSome?_eq_none_iff]
  constructor
  · intro hall
    refine ⟨?_, ?_⟩
    · intro f hf v hv
      simpa [hv] using hall f hf
    · intro f hf hnone
      simpa [hnone, Option.isNone_iff_eq_none, Option.isSome_iff_ne_none] using hall f hf
  · rintro ⟨present, absent⟩ f hf
    cases hget : members.get? f.name with
    | none => simp [Option.isNone_iff_eq_none, Option.isSome_iff_ne_none.mp (absent f hf hget)]
    | some v => exact present f hf v hget

theorem checks_congr {s t : Schema} (h : s.resolve? lookup = t.resolve? lookup) (v : Json) :
    mismatchWithin? lookup (levels + 1) s v = mismatchWithin? lookup (levels + 1) t v ∧
      missingWithin? lookup (levels + 1) s v = missingWithin? lookup (levels + 1) t v := by
  simp only [mismatchWithin?, missingWithin?, h, and_self]

theorem valid_of_fits {target : Schema} {v : Json}
    (hp : target matches .primitive _ _ | .fixed _ _ | .enumeration _ _ _)
    (h : mismatchWithin? lookup (levels + 1) target v = none) : Valid lookup target v := by
  cases target with
  | primitive p n => exact .primitive (primitiveMismatch?_eq_none_iff.mp h)
  | fixed head size =>
    cases v with
    | string t => exact .fixed t
    | _ => cases h
  | enumeration head symbols d =>
    cases v with
    | string t =>
      change (if symbols.contains t then none else some (Mismatch.noSymbol _ t)) = none at h
      split at h
      · next hmem => exact .enumeration (by simpa using hmem)
      · cases h
    | _ => cases h
  | record | compound | reference => cases hp

theorem fits_of_valid {s : Schema} {v : Json} (h : Valid lookup s v) (levels : Nat) :
    mismatchWithin? lookup levels s v = none := by
  induction h generalizing levels with
  | primitive takes =>
    cases levels with
    | zero => rfl
    | succ levels => exact primitiveMismatch?_eq_none_iff.mpr takes
  | fixed t => cases levels <;> rfl
  | @enumeration head symbols d t symbol =>
    cases levels with
    | zero => rfl
    | succ levels =>
      change symbolMismatch? (.enumeration head symbols d) symbols (.string t) = none
      simp [symbolMismatch?, symbol]
  | array inner ih =>
    cases levels with
    | zero => rfl
    | succ levels => exact mismatch_array_iff.mpr fun e he part hp => ih e he part hp levels
  | map inner ih =>
    cases levels with
    | zero => rfl
    | succ levels => exact mismatch_map_iff.mpr fun m hm part hp => ih m hm part hp levels
  | logical base ih =>
    cases levels with
    | zero => rfl
    | succ levels => exact mismatch_logical_iff.mpr fun part hp => ih part hp levels
  | record present absent ih =>
    cases levels with
    | zero => rfl
    | succ levels => exact mismatch_record_iff.mpr fun f hf w hw => ih f hf w hw levels
  | union member takes ih =>
    cases levels with
    | zero => rfl
    | succ levels => exact mismatch_union_iff.mpr ⟨_, member, ih levels⟩
  | @reference r target v denotes takes ih =>
    have hres : (Schema.reference r).resolve? lookup = some target := denotes
    cases levels with
    | zero => rfl
    | succ levels =>
      cases target with
      | reference r' => simp only [mismatchWithin?, hres]
      | _ => exact (checks_congr hres v).1.trans (ih (levels + 1))

theorem valid_iff_whole {s : Schema} {v : Json} (h : mismatchWithin? lookup levels s v = none) :
    Valid lookup s v ↔ Whole lookup levels s v := by
  induction levels generalizing s v with
  | zero => exact Iff.rfl
  | succ levels ih =>
    cases hres : s.resolve? lookup with
    | none => simp only [Whole, hres]
    | some target =>
      rw [valid_iff_of_resolve hres]
      cases target with
      | reference r => simp only [Whole, hres]
      | primitive p n =>
        rw [(checks_congr (t := .primitive p n) hres v).1] at h
        simp only [Whole, hres, iff_true]
        exact valid_of_fits rfl h
      | fixed head size =>
        rw [(checks_congr (t := .fixed head size) hres v).1] at h
        simp only [Whole, hres, iff_true]
        exact valid_of_fits rfl h
      | enumeration head symbols d =>
        rw [(checks_congr (t := .enumeration head symbols d) hres v).1] at h
        simp only [Whole, hres, iff_true]
        exact valid_of_fits rfl h
      | record head e fields =>
        rw [(checks_congr (t := .record head e fields) hres v).1] at h
        cases v with
        | object members =>
          rw [mismatch_record_iff] at h
          simp only [Whole, hres, valid_record_iff]
          refine and_congr ?_ Iff.rfl
          exact forall₂_congr fun f hf => forall₂_congr fun w hw => ih (h f hf w hw)
        | _ => cases h
      | compound shape parts n =>
        rw [(checks_congr (t := .compound shape parts n) hres v).1] at h
        cases shape with
        | array =>
          cases v with
          | array elements =>
            rw [mismatch_array_iff] at h
            simp only [Whole, hres, valid_array_iff]
            exact forall₂_congr fun e he => forall₂_congr fun part hp => ih (h e he part hp)
          | _ => cases h
        | map =>
          cases v with
          | object members =>
            rw [mismatch_map_iff] at h
            simp only [Whole, hres, valid_map_iff]
            exact forall₂_congr fun m hm => forall₂_congr fun part hp => ih (h m hm part hp)
          | _ => cases h
        | logical k precision scale =>
          rw [mismatch_logical_iff] at h
          simp only [Whole, hres, valid_logical_iff]
          exact forall₂_congr fun part hp => ih (h part hp)
        | union isOptional =>
          simp only [Whole, hres, valid_union_iff]
          constructor
          · rintro ⟨branch, hb, hv⟩
            have hfits := fits_of_valid hv levels
            exact ⟨branch, hb, hfits, (ih hfits).mp hv⟩
          · rintro ⟨branch, hb, hfits, hwhole⟩
            exact ⟨branch, hb, (ih hfits).mpr hwhole⟩

theorem valid_iff_oneBranch {s : Schema} {v : Json}
    (hfits : mismatchWithin? lookup levels s v = none)
    (hcomplete : missingWithin? lookup levels s v = none) :
    Valid lookup s v ↔ OneBranch lookup levels s v := by
  induction levels generalizing s v with
  | zero => exact Iff.rfl
  | succ levels ih =>
    have hwhole := valid_iff_whole hfits
    cases hres : s.resolve? lookup with
    | none => simp only [OneBranch, hres]
    | some target =>
      cases target with
      | reference r => simpa only [OneBranch, hres] using hwhole
      | primitive p n =>
        rw [(checks_congr (t := .primitive p n) hres v).1] at hfits
        simp only [OneBranch, hres, iff_true]
        exact (valid_iff_of_resolve hres).mpr (valid_of_fits rfl hfits)
      | fixed head size =>
        rw [(checks_congr (t := .fixed head size) hres v).1] at hfits
        simp only [OneBranch, hres, iff_true]
        exact (valid_iff_of_resolve hres).mpr (valid_of_fits rfl hfits)
      | enumeration head symbols d =>
        rw [(checks_congr (t := .enumeration head symbols d) hres v).1] at hfits
        simp only [OneBranch, hres, iff_true]
        exact (valid_iff_of_resolve hres).mpr (valid_of_fits rfl hfits)
      | record head e fields =>
        rw [(checks_congr (t := .record head e fields) hres v).1] at hfits
        rw [(checks_congr (t := .record head e fields) hres v).2] at hcomplete
        rw [valid_iff_of_resolve hres]
        cases v with
        | object members =>
          rw [mismatch_record_iff] at hfits
          rw [missing_record_iff] at hcomplete
          simp only [OneBranch, hres, valid_record_iff]
          rw [and_iff_left hcomplete.2]
          exact forall₂_congr fun f hf => forall₂_congr fun w hw =>
            ih (hfits f hf w hw) (hcomplete.1 f hf w hw)
        | _ => cases hfits
      | compound shape parts n =>
        rw [(checks_congr (t := .compound shape parts n) hres v).1] at hfits
        rw [(checks_congr (t := .compound shape parts n) hres v).2] at hcomplete
        cases shape with
        | array =>
          rw [valid_iff_of_resolve hres]
          cases v with
          | array elements =>
            rw [mismatch_array_iff] at hfits
            rw [missing_array_iff] at hcomplete
            simp only [OneBranch, hres, valid_array_iff]
            exact forall₂_congr fun e he => forall₂_congr fun part hp =>
              ih (hfits e he part hp) (hcomplete e he part hp)
          | _ => cases hfits
        | map =>
          rw [valid_iff_of_resolve hres]
          cases v with
          | object members =>
            rw [mismatch_map_iff] at hfits
            rw [missing_map_iff] at hcomplete
            simp only [OneBranch, hres, valid_map_iff]
            exact forall₂_congr fun m hm => forall₂_congr fun part hp =>
              ih (hfits m hm part hp) (hcomplete m hm part hp)
          | _ => cases hfits
        | logical k precision scale => simpa only [OneBranch, hres] using hwhole
        | union isOptional => simpa only [OneBranch, hres] using hwhole

end

end Default

namespace Registry

open Default

/-- A field of a registered record or a parameter of a message has the type and the default. -/
inductive HasDefault (r : Registry) (messages : List Message) : Schema → Json → Prop
  | field {e : Entry} {h : Head} {isError : Bool} {fields : List Field} {f : Field} {v : Json}
      (entry : e ∈ r.entries) (record : e.schema = .record h isError fields)
      (field : f ∈ fields) (default : f.default = some v) : HasDefault r messages f.type v
  | parameter {m : Message} {f : Field} {v : Json} (message : m ∈ messages)
      (parameter : f ∈ m.request) (default : f.default = some v) :
    HasDefault r messages f.type v

theorem defaultProblem?_eq_none {r : Registry} {owner file : Text} {f : Field} {v : Json}
    (h : r.defaultProblem? owner file f = none) (hv : f.default = some v) :
    mismatch? r.lookup f.type v = none ∧ missing? r.lookup f.type v = none := by
  unfold defaultProblem? at h
  rw [hv, Option.bind_some] at h
  split at h
  · cases h
  · next hfits => exact ⟨hfits, Option.map_eq_none_iff.mp h⟩

theorem HasDefault.passes {r : Registry} {messages : List Message} {s : Schema} {v : Json}
    (hd : r.HasDefault messages s v) (h : r.validateDefaults messages = []) :
    mismatch? r.lookup s v = none ∧ missing? r.lookup s v = none := by
  obtain ⟨hentries, hmessages⟩ := List.append_eq_nil_iff.mp h
  rw [List.flatMap_eq_nil_iff] at hentries hmessages
  cases hd with
  | field entry record field default =>
    have hnone := hentries _ entry
    rw [record] at hnone
    exact defaultProblem?_eq_none (List.filterMap_eq_nil_iff.mp hnone _ field) default
  | parameter message parameter default =>
    have hnone := hmessages _ message
    exact defaultProblem?_eq_none (List.filterMap_eq_nil_iff.mp hnone _ parameter) default

/-- Where no problem is reported, a default is valid exactly if it reads every union that it meets
by one branch. -/
theorem valid_iff_of_validateDefaults {r : Registry} {messages : List Message}
    (h : r.validateDefaults messages = []) {s : Schema} {v : Json}
    (hd : r.HasDefault messages s v) :
    Valid r.lookup s v ↔ OneBranch r.lookup Default.levels s v :=
  valid_iff_oneBranch (hd.passes h).1 (hd.passes h).2

/-- Two records with a field of the same name. -/
def firstRecord : Schema :=
  .record { name := "A" } false
    [{ name := "x", type := .plain .int }, { name := "y", type := .plain .int }]

def secondRecord : Schema :=
  .record { name := "B" } false [{ name := "x", type := .plain .string }]

def firstOrSecond : Schema :=
  .compound (.union false)
    [.reference { name := "A", binding := some 0 },
      .reference { name := "B", binding := some 1 }] {}

/-- The default leaves out a field of the first record, and has a value of the wrong type for the
second. -/
def halfField : Field :=
  { name := "f", type := firstOrSecond, default := some (.object [("x", .integer 1)]) }

def wholeField : Field :=
  { name := "g", type := firstOrSecond, default := some (.object [("x", .string "one")]) }

def twoRecords : Registry :=
  { entries :=
      [⟨firstRecord, []⟩, ⟨secondRecord, []⟩,
        ⟨.record { name := "R" } false [halfField, wholeField], []⟩] }

theorem validateDefaults_twoRecords : twoRecords.validateDefaults [] = [] := by decide

theorem hasDefault_twoRecords {f : Field} (hf : f ∈ [halfField, wholeField]) {v : Json}
    (hv : f.default = some v) : twoRecords.HasDefault [] f.type v := by
  have hentry : (⟨.record { name := "R" } false [halfField, wholeField], []⟩ : Entry) ∈
      twoRecords.entries := by
    simp [twoRecords]
  exact .field hentry rfl hf hv

theorem bound_twoRecords : twoRecords.Bound [] := by
  decide +kernel

/-- The checks let a default through that is valid for no branch of its union. -/
theorem exists_invalid_default :
    twoRecords.Bound [] ∧ twoRecords.validateDefaults [] = [] ∧
      ∃ s v, twoRecords.HasDefault [] s v ∧ ¬Valid twoRecords.lookup s v := by
  refine ⟨bound_twoRecords, validateDefaults_twoRecords, firstOrSecond,
    .object [("x", .integer 1)], hasDefault_twoRecords (f := halfField) (by simp) rfl, ?_⟩
  rw [firstOrSecond, valid_union_iff]
  rintro ⟨branch, hb, hv⟩
  simp only [List.mem_cons, List.not_mem_nil, or_false] at hb
  rcases hb with rfl | rfl
  · have hfirst : (Schema.reference { name := "A", binding := some 0 }).resolve? twoRecords.lookup =
        some firstRecord := rfl
    rw [valid_iff_of_resolve hfirst, firstRecord, valid_record_iff] at hv
    have hy := hv.2 { name := "y", type := .plain .int } (by simp) (by decide)
    cases hy
  · have hsecond : (Schema.reference { name := "B", binding := some 1 }).resolve?
        twoRecords.lookup = some secondRecord := rfl
    rw [valid_iff_of_resolve hsecond, secondRecord, valid_record_iff] at hv
    have hx := hv.1 { name := "x", type := .plain .string } (by simp) (.integer 1) rfl
    obtain ⟨t, ht⟩ := valid_primitive_iff.mp hx
    cases ht

/-- The default that reads its union by the second branch is valid. -/
theorem valid_default_of_one_branch :
    twoRecords.validateDefaults [] = [] ∧
      twoRecords.HasDefault [] firstOrSecond (.object [("x", .string "one")]) ∧
      Valid twoRecords.lookup firstOrSecond (.object [("x", .string "one")]) := by
  have hd : twoRecords.HasDefault [] firstOrSecond (.object [("x", .string "one")]) :=
    hasDefault_twoRecords (f := wholeField) (by simp) rfl
  refine ⟨validateDefaults_twoRecords, hd, ?_⟩
  refine (valid_iff_of_validateDefaults validateDefaults_twoRecords hd).mpr ?_
  refine ⟨.reference { name := "B", binding := some 1 }, by simp, by decide, ?_, ?_⟩
  · intro f hf w hw
    rw [List.mem_singleton.mp hf]
    exact trivial
  · intro f hf hnone
    rw [List.mem_singleton.mp hf] at hnone
    cases hnone

end Registry

end AvroIdl
