import AvroIdl.Build.Declaration
import AvroIdl.Proofs.DefaultValidity

/-!
# Which valid defaults are accepted

A valid default fits its type, whatever is known of the references in it, so neither the check of a
declaration nor that of the registry finds a mismatch. The search for missing fields looks at the
records of a union only. So a valid default is reported exactly if it has an object that stands at a
union with records and leaves out a field of each of them, as the value of a map may do.
-/
namespace AvroIdl

namespace Default

def DenotesRecord (lookup : Schema.Lookup) (s : Schema) : Prop :=
  ∃ h e fields, s.resolve? lookup = some (.record h e fields)

/-- No record has a field that the value leaves out. An object at a union counts as one of the
records of the union, if there is one. -/
def Filled (lookup : Schema.Lookup) : (levels : Nat) → Schema → Json → Prop
  | 0, _, _ => True
  | levels + 1, s, v =>
    match s.resolve? lookup, v with
    | some (.record _ _ fields), .object members =>
      (∀ f ∈ fields, ∀ w, Members.get? members f.name = some w → Filled lookup levels f.type w) ∧
        ∀ f ∈ fields, Members.get? members f.name = none → f.default.isSome = true
    | some (.compound (.union _) parts _), .object members =>
      (∃ b ∈ parts, DenotesRecord lookup b) →
        ∃ b ∈ parts, DenotesRecord lookup b ∧ Filled lookup levels b (.object members)
    | some (.compound .array parts _), .array elements =>
      ∀ e ∈ elements, ∀ part, parts.head? = some part → Filled lookup levels part e
    | some (.compound .map parts _), .object members =>
      ∀ m ∈ members, ∀ part, parts.head? = some part → Filled lookup levels part m.2
    | _, _ => True

/-- Wherever an object in the value meets a union that has records, it fills one of them. -/
def FillsRecord (lookup : Schema.Lookup) : (levels : Nat) → Schema → Json → Prop
  | 0, _, _ => True
  | levels + 1, s, v =>
    match s.resolve? lookup, v with
    | some (.record _ _ fields), .object members =>
      ∀ f ∈ fields, ∀ w, Members.get? members f.name = some w → FillsRecord lookup levels f.type w
    | some (.compound (.union _) parts _), .object members =>
      (∃ b ∈ parts, DenotesRecord lookup b) →
        ∃ b ∈ parts, DenotesRecord lookup b ∧ Filled lookup levels b (.object members)
    | some (.compound .array parts _), .array elements =>
      ∀ e ∈ elements, ∀ part, parts.head? = some part → FillsRecord lookup levels part e
    | some (.compound .map parts _), .object members =>
      ∀ m ∈ members, ∀ part, parts.head? = some part → FillsRecord lookup levels part m.2
    | _, _ => True

section Missing

variable {lookup : Schema.Lookup} {levels : Nat}

theorem missing_resolved {s target : Schema} (h : s.resolve? lookup = some target)
    (ht : target.resolve? lookup = some target) (v : Json) :
    missingWithin? lookup levels target v = missingWithin? lookup levels s v := by
  cases levels with
  | zero => rfl
  | succ levels => exact (checks_congr (ht.trans h.symm) v).2

/-- The records that the search looks at are those that the branches denote. -/
theorem mem_records_iff {parts : List Schema} {t : Schema} :
    t ∈ (parts.filterMap (Schema.resolve? lookup)).filter (·.kind == .record) ↔
      ∃ b ∈ parts, b.resolve? lookup = some t ∧ ∃ h e fields, t = .record h e fields := by
  simp only [List.mem_filter, List.mem_filterMap, beq_iff_eq]
  constructor
  · rintro ⟨⟨b, hb, hres⟩, hkind⟩
    refine ⟨b, hb, hres, ?_⟩
    cases t with
    | record h e fields => exact ⟨h, e, fields, rfl⟩
    | compound shape parts n => cases shape <;> cases hkind
    | _ => cases hkind
  · rintro ⟨b, hb, hres, h, e, fields, rfl⟩
    exact ⟨⟨b, hb, hres⟩, rfl⟩

theorem missing_union_iff {isOptional : Bool} {parts : List Schema} {n : Note}
    {members : Members} :
    missingWithin? lookup (levels + 1) (.compound (.union isOptional) parts n) (.object members) =
        none ↔
      ((∃ b ∈ parts, DenotesRecord lookup b) →
        ∃ b ∈ parts, DenotesRecord lookup b ∧
          missingWithin? lookup levels b (.object members) = none) := by
  have hstep : missingWithin? lookup (levels + 1) (.compound (.union isOptional) parts n)
      (.object members) =
        let results := ((parts.filterMap (Schema.resolve? lookup)).filter
          (·.kind == .record)).map fun s => missingWithin? lookup levels s (.object members)
        if results.any Option.isNone then none else results.head?.join := rfl
  rw [hstep]
  dsimp only
  split
  · next hany =>
    simp only [true_iff]
    intro _
    rw [List.any_map, List.any_eq_true] at hany
    obtain ⟨t, ht, hnone⟩ := hany
    obtain ⟨b, hb, hres, h, e, fields, rfl⟩ := mem_records_iff.mp ht
    refine ⟨b, hb, ⟨h, e, fields, hres⟩, ?_⟩
    rw [← missing_resolved hres rfl]
    exact Option.isNone_iff_eq_none.mp hnone
  · next hall =>
    constructor
    · intro hnone hexists
      obtain ⟨b, hb, h, e, fields, hres⟩ := hexists
      have hmem := mem_records_iff.mpr ⟨b, hb, hres, h, e, fields, rfl⟩
      -- there is a first record, and it misses no field, against the assumption
      cases hlist : (parts.filterMap (Schema.resolve? lookup)).filter (·.kind == .record) with
      | nil =>
        rw [hlist] at hmem
        cases hmem
      | cons t rest =>
        rw [hlist] at hnone hall
        simp only [List.map_cons, List.head?_cons, Option.join_some] at hnone
        simp [hnone] at hall
    · intro himp
      cases hlist : (parts.filterMap (Schema.resolve? lookup)).filter (·.kind == .record) with
      | nil => rfl
      | cons t rest =>
        have ht := mem_records_iff.mp (hlist ▸ List.mem_cons_self : t ∈ _)
        obtain ⟨b, hb, hres, h, e, fields, rfl⟩ := ht
        obtain ⟨b', hb', ⟨h', e', fields', hres'⟩, hnone⟩ := himp ⟨b, hb, h, e, fields, hres⟩
        rw [← missing_resolved hres' rfl] at hnone
        refine absurd (List.any_eq_true.mpr ⟨none, ?_, rfl⟩) hall
        refine List.mem_map.mpr
          ⟨_, mem_records_iff.mpr ⟨b', hb', hres', h', e', fields', rfl⟩, hnone⟩

theorem missing_eq_none_iff {s : Schema} {v : Json} :
    missingWithin? lookup levels s v = none ↔ Filled lookup levels s v := by
  induction levels generalizing s v with
  | zero => exact iff_of_true rfl trivial
  | succ levels ih =>
    cases hres : s.resolve? lookup with
    | none => simp [missingWithin?, Filled, hres]
    | some target =>
      cases target with
      | primitive p n => simp [missingWithin?, Filled, hres]
      | fixed head size => simp [missingWithin?, Filled, hres]
      | enumeration head symbols d => simp [missingWithin?, Filled, hres]
      | reference r => simp [missingWithin?, Filled, hres]
      | record head e fields =>
        cases v with
        | object members =>
          rw [(checks_congr (t := .record head e fields) hres _).2, missing_record_iff]
          simp only [Filled, hres, ih]
        | _ => simp [missingWithin?, Filled, hres]
      | compound shape parts n =>
        have hsame : ∀ v, missingWithin? lookup (levels + 1) s v =
            missingWithin? lookup (levels + 1) (.compound shape parts n) v :=
          fun v => (checks_congr hres v).2
        cases shape with
        | array =>
          cases v with
          | array elements =>
            rw [hsame, missing_array_iff]
            simp only [Filled, hres, ih]
          | _ => simp [missingWithin?, Filled, hres]
        | map =>
          cases v with
          | object members =>
            rw [hsame, missing_map_iff]
            simp only [Filled, hres, ih]
          | _ => simp [missingWithin?, Filled, hres]
        | union isOptional =>
          cases v with
          | object members =>
            rw [hsame, missing_union_iff]
            simp only [Filled, hres, ih]
          | _ => simp [missingWithin?, Filled, hres]
        | logical k precision scale => simp [missingWithin?, Filled, hres]

/-- A valid value sets the fields of the records that it is valid for, so only unions are left. -/
theorem filled_iff_fillsRecord {s : Schema} {v : Json} (h : Valid lookup s v) :
    Filled lookup levels s v ↔ FillsRecord lookup levels s v := by
  induction levels generalizing s v with
  | zero => exact Iff.rfl
  | succ levels ih =>
    cases hres : s.resolve? lookup with
    | none => simp only [Filled, FillsRecord, hres]
    | some target =>
      rw [valid_iff_of_resolve hres] at h
      cases h with
      | primitive takes => simp only [Filled, FillsRecord, hres]
      | fixed t => simp only [Filled, FillsRecord, hres]
      | enumeration symbol => simp only [Filled, FillsRecord, hres]
      | reference denotes takes => simp only [Filled, FillsRecord, hres]
      | logical base => simp only [Filled, FillsRecord, hres]
      | @union isOptional parts n v branch member takes =>
        cases v <;> simp only [Filled, FillsRecord, hres]
      | array inner =>
        simp only [Filled, FillsRecord, hres]
        exact forall₂_congr fun e he => forall₂_congr fun part hp => ih (inner e he part hp)
      | map inner =>
        simp only [Filled, FillsRecord, hres]
        exact forall₂_congr fun m hm => forall₂_congr fun part hp => ih (inner m hm part hp)
      | record present absent =>
        simp only [Filled, FillsRecord, hres]
        rw [and_iff_left absent]
        exact forall₂_congr fun f hf => forall₂_congr fun w hw => ih (present f hf w hw)

end Missing

section Unknown

variable {lookup known : Schema.Lookup} {levels : Nat}

/-- A value that fits where more references are known fits where fewer are. -/
theorem fits_of_fewer (hknown : ∀ r t, known r = some t → lookup r = some t) {s : Schema}
    {v : Json} (h : mismatchWithin? lookup levels s v = none) :
    mismatchWithin? known levels s v = none := by
  induction levels generalizing s v with
  | zero => rfl
  | succ levels ih =>
    cases hres : s.resolve? known with
    | none => simp only [mismatchWithin?, hres]
    | some target =>
      have hres' : s.resolve? lookup = some target := by
        cases s with
        | reference r => exact hknown r target hres
        | _ => exact hres
      cases target with
      | primitive p n => simpa only [mismatchWithin?, hres, hres'] using h
      | fixed head size => simpa only [mismatchWithin?, hres, hres'] using h
      | enumeration head symbols d => simpa only [mismatchWithin?, hres, hres'] using h
      | reference r => simp only [mismatchWithin?, hres]
      | record head e fields =>
        rw [(checks_congr (t := .record head e fields) hres v).1]
        rw [(checks_congr (t := .record head e fields) hres' v).1] at h
        cases v with
        | object members =>
          rw [mismatch_record_iff] at h ⊢
          exact fun f hf w hw => ih (h f hf w hw)
        | _ => cases h
      | compound shape parts n =>
        rw [(checks_congr (t := .compound shape parts n) hres v).1]
        rw [(checks_congr (t := .compound shape parts n) hres' v).1] at h
        cases shape with
        | array =>
          cases v with
          | array elements =>
            rw [mismatch_array_iff] at h ⊢
            exact fun e he part hp => ih (h e he part hp)
          | _ => cases h
        | map =>
          cases v with
          | object members =>
            rw [mismatch_map_iff] at h ⊢
            exact fun m hm part hp => ih (h m hm part hp)
          | _ => cases h
        | logical k precision scale =>
          rw [mismatch_logical_iff] at h ⊢
          exact fun part hp => ih (h part hp)
        | union isOptional =>
          rw [mismatch_union_iff] at h ⊢
          obtain ⟨branch, hb, hfits⟩ := h
          exact ⟨branch, hb, ih hfits⟩

/-- Where no reference is known, it does not matter what the references are bound to. -/
theorem fits_of_fits_bind {place : Placement} {left : Nat} {s : Schema} {v : Json}
    (h : mismatchWithin? Schema.Lookup.none levels (s.bind place left) v = none) :
    mismatchWithin? Schema.Lookup.none levels s v = none := by
  induction levels generalizing s v left with
  | zero => rfl
  | succ levels ih =>
    cases left with
    | zero => simpa using h
    | succ left =>
      cases s with
      | primitive p n => simpa using h
      | fixed head size => simpa using h
      | enumeration head symbols d => simpa using h
      | reference r => rfl
      | record head e fields =>
        rw [Schema.bind_record] at h
        cases v with
        | object members =>
          rw [mismatch_record_iff] at h ⊢
          intro f hf w hw
          exact ih (h { f with type := f.type.bind place left } (List.mem_map_of_mem hf) w hw)
        | _ => cases h
      | compound shape parts n =>
        have hhead : ∀ part, parts.head? = some part →
            (parts.map (Schema.bind place left)).head? = some (part.bind place left) := by
          intro part hp
          rw [List.head?_map, hp]
          rfl
        rw [Schema.bind_compound] at h
        cases shape with
        | array =>
          cases v with
          | array elements =>
            rw [mismatch_array_iff] at h ⊢
            exact fun e he part hp => ih (h e he _ (hhead part hp))
          | _ => cases h
        | map =>
          cases v with
          | object members =>
            rw [mismatch_map_iff] at h ⊢
            exact fun m hm part hp => ih (h m hm _ (hhead part hp))
          | _ => cases h
        | logical k precision scale =>
          rw [mismatch_logical_iff] at h ⊢
          exact fun part hp => ih (h _ (hhead part hp))
        | union isOptional =>
          rw [mismatch_union_iff] at h ⊢
          obtain ⟨branch', hb', hfits⟩ := h
          obtain ⟨branch, hb, rfl⟩ := List.mem_map.mp hb'
          exact ⟨branch, hb, ih hfits⟩

end Unknown

end Default

namespace Build

open Default

/-- The check of a declaration lets every value through that is valid once the references of its
type are bound, whatever they are bound to. -/
theorem defaultOf_of_valid {lookup : Schema.Lookup} {place : Placement} {left : Nat} {s : Schema}
    {node : JsonNode} {v : Json} (hnode : Literal.decodeJson node = .ok v)
    (hv : Valid lookup ((branchesFor v s).bind place left) v) (c : Context) (name owner : Text)
    (w : List Diagnostic) :
    (defaultOf c name owner s (some node)).run w = (.ok (branchesFor v s, some v), w) := by
  have hbound : mismatchWithin? Schema.Lookup.none Default.levels
      ((branchesFor v s).bind place left) v = none := by
    have hnone : ∀ r t, Schema.Lookup.none r = some t → lookup r = some t := nofun
    exact fits_of_fewer hnone (fits_of_valid hv _)
  have hfits : mismatch? Schema.Lookup.none (branchesFor v s) v = none := fits_of_fits_bind hbound
  have hdecoded : decodedJson c node = pure v := by
    rw [decodedJson, hnode]
  change (decodedJson c node >>= fun value => _).run w = _
  rw [hdecoded, pure_bind]
  dsimp only
  rw [hfits]
  rfl

end Build

namespace Registry

open Default

/-- The fields and parameters whose defaults are checked, each with its owner in words and the file
that its problems belong to. -/
inductive Checks (r : Registry) (messages : List Message) : Text → Text → Field → Prop
  | field {e : Entry} {h : Head} {isError : Bool} {fields : List Field} {f : Field}
      (entry : e ∈ r.entries) (record : e.schema = .record h isError fields) (field : f ∈ fields) :
    Checks r messages ("record '" ++ h.full ++ "'") e.origin f
  | parameter {m : Message} {f : Field} (message : m ∈ messages) (parameter : f ∈ m.request) :
    Checks r messages ("message '" ++ m.name ++ "'") r.file f

variable {r : Registry} {messages : List Message}

theorem mem_validateDefaults_iff {d : Diagnostic} :
    d ∈ r.validateDefaults messages ↔
      ∃ owner file f, r.Checks messages owner file f ∧
        r.defaultProblem? owner file f = some d := by
  simp only [validateDefaults, List.mem_append, List.mem_flatMap]
  constructor
  · rintro (⟨e, he, hd⟩ | ⟨m, hm, hd⟩)
    · split at hd
      · next h isError fields hrecord =>
        obtain ⟨f, hf, hproblem⟩ := List.mem_filterMap.mp hd
        exact ⟨_, _, f, .field he hrecord hf, hproblem⟩
      · cases hd
    · obtain ⟨f, hf, hproblem⟩ := List.mem_filterMap.mp hd
      exact ⟨_, _, f, .parameter hm hf, hproblem⟩
  · rintro ⟨owner, file, f, hc, hproblem⟩
    cases hc with
    | @field e h isError fields f entry record field =>
      refine .inl ⟨e, entry, ?_⟩
      rw [record]
      exact List.mem_filterMap.mpr ⟨f, field, hproblem⟩
    | parameter message parameter =>
      exact .inr ⟨_, message, List.mem_filterMap.mpr ⟨f, parameter, hproblem⟩⟩

/-- What is reported for a default that fits its type is a field that it leaves out. -/
theorem defaultProblem?_of_fits {f : Field} {v : Json} (hd : f.default = some v)
    (hfits : mismatch? r.lookup f.type v = none) (owner file : Text) :
    (r.defaultProblem? owner file f = none ↔ missing? r.lookup f.type v = none) ∧
      ∀ d, r.defaultProblem? owner file f = some d → d.kind = .incompleteRecordDefault := by
  have hproblem : r.defaultProblem? owner file f =
      (missing? r.lookup f.type v).map fun m =>
        { kind := .incompleteRecordDefault, span := f.span, file := file
          message :=
            "Default for field '" ++ f.name ++ "' in " ++ owner ++ " does not set '" ++ m.path ++
              "', which has no default." } := by
    simp only [defaultProblem?, hd, Option.bind_some, hfits]
  rw [hproblem]
  refine ⟨Option.map_eq_none_iff, fun d h => ?_⟩
  obtain ⟨m, -, rfl⟩ := Option.map_eq_some_iff.mp h
  rfl

/-- A valid default passes the check of its declaration. The registry reports it exactly if it has
an object that meets a union with records and fills none of them, and then as incomplete. -/
theorem accepted_iff_of_valid {owner file : Text} {f : Field} {v : Json}
    (hc : r.Checks messages owner file f) (hd : f.default = some v)
    (hv : Valid r.lookup f.type v) :
    (∀ (c : Build.Context) (declaredOwner : Text) (declared : Schema) (node : JsonNode)
        (place : Placement) (w : List Diagnostic),
      Literal.decodeJson node = .ok v → (Build.branchesFor v declared).bindAll place = f.type →
        (Build.defaultOf c f.name declaredOwner declared (some node)).run w =
          (.ok (Build.branchesFor v declared, some v), w)) ∧
      (r.defaultProblem? owner file f = none ↔ FillsRecord r.lookup Default.levels f.type v) ∧
      ∀ d, r.defaultProblem? owner file f = some d →
        d ∈ r.validateDefaults messages ∧ d.kind = .incompleteRecordDefault := by
  have hfits : mismatch? r.lookup f.type v = none := fits_of_valid hv _
  obtain ⟨hnone, hkind⟩ := defaultProblem?_of_fits hd hfits owner file
  refine ⟨?_, ?_, ?_⟩
  · intro c declaredOwner declared node place w hnode htype
    have hbound : Valid r.lookup
        ((Build.branchesFor v declared).bind place Schema.bindingLevels) v := by
      change Valid r.lookup ((Build.branchesFor v declared).bindAll place) v
      rw [htype]
      exact hv
    exact Build.defaultOf_of_valid hnode hbound c f.name declaredOwner w
  · rw [hnone, missing?, missing_eq_none_iff]
    exact filled_iff_fillsRecord hv
  · intro d hproblem
    exact ⟨mem_validateDefaults_iff.mpr ⟨owner, file, f, hc, hproblem⟩, hkind d hproblem⟩

/-- A record, and a union of a map and that record. -/
def pointRecord : Schema := .record { name := "P" } false [{ name := "x", type := .plain .int }]

def mapOrPoint : Schema :=
  .compound (.union false)
    [.compound .map [.plain .int] {}, .reference { name := "P", binding := some 0 }] {}

/-- The default is a map without the field of the record. -/
def mapField : Field :=
  { name := "f", type := mapOrPoint, default := some (.object [("a", .integer 1)]) }

/-- The default is a map that has the field of the record. -/
def pointField : Field :=
  { name := "g", type := mapOrPoint, default := some (.object [("x", .integer 1)]) }

def mapAndPoint : Registry :=
  { entries :=
      [⟨pointRecord, []⟩, ⟨.record { name := "R" } false [mapField, pointField], []⟩] }

theorem checks_mapAndPoint {f : Field} (hf : f ∈ [mapField, pointField]) :
    mapAndPoint.Checks [] "record 'R'" [] f := by
  have hentry : (⟨.record { name := "R" } false [mapField, pointField], []⟩ : Entry) ∈
      mapAndPoint.entries := by
    simp [mapAndPoint]
  exact .field hentry rfl hf

theorem valid_mapOrPoint (key : Text) :
    Valid mapAndPoint.lookup mapOrPoint (.object [(key, .integer 1)]) := by
  refine .union (List.mem_cons_self) (.map ?_)
  intro m hm part hp
  rw [List.mem_singleton.mp hm]
  cases hp
  exact .primitive ⟨1, rfl, by decide, by decide⟩

/-- A default that is valid for the map of its union is reported because of the record beside it. -/
theorem exists_rejected_valid_default :
    mapAndPoint.Bound [] ∧
      ∃ f v, mapAndPoint.Checks [] "record 'R'" [] f ∧ f.default = some v ∧
        Valid mapAndPoint.lookup f.type v ∧
        ∃ d ∈ mapAndPoint.validateDefaults [],
          mapAndPoint.defaultProblem? "record 'R'" [] f = some d ∧
            d.kind = .incompleteRecordDefault := by
  have hc := checks_mapAndPoint (f := mapField) (by simp)
  have hfits : mismatch? mapAndPoint.lookup mapField.type (.object [("a", .integer 1)]) = none :=
    fits_of_valid (valid_mapOrPoint "a") _
  obtain ⟨hnone, hkind⟩ :=
    defaultProblem?_of_fits (f := mapField) rfl hfits "record 'R'" []
  refine ⟨by decide +kernel, mapField, _, hc, rfl, valid_mapOrPoint "a", ?_⟩
  cases hproblem : mapAndPoint.defaultProblem? "record 'R'" [] mapField with
  | none => exact absurd (hnone.mp hproblem) (by decide)
  | some d =>
    exact ⟨d, mem_validateDefaults_iff.mpr ⟨_, _, _, hc, hproblem⟩, rfl, hkind d hproblem⟩

/-- The map that has the field of the record is accepted, in its declaration as well, where the
reference is not yet bound. -/
theorem accepted_default_of_filled_record :
    mapAndPoint.defaultProblem? "record 'R'" [] pointField = none ∧
      ((Build.defaultOf { file := [] } "g" "record 'R'"
        (.compound (.union false) [.compound .map [.plain .int] {}, .reference { name := "P" }] {})
        (some (.object [("x", {}, .scalar .integer "1" {})] {}))).run []).1.isOk = true := by
  have hc := checks_mapAndPoint (f := pointField) (by simp)
  obtain ⟨hdeclared, hchecked, -⟩ := accepted_iff_of_valid hc rfl (valid_mapOrPoint "x")
  refine ⟨hchecked.mpr ?_, ?_⟩
  · have hmissing :
        missing? mapAndPoint.lookup mapOrPoint (.object [("x", .integer 1)]) = none := by
      decide
    exact (filled_iff_fillsRecord (valid_mapOrPoint "x")).mp (missing_eq_none_iff.mp hmissing)
  · have hrun := hdeclared { file := [] } "record 'R'"
      (.compound (.union false) [.compound .map [.plain .int] {}, .reference { name := "P" }] {})
      (.object [("x", {}, .scalar .integer "1" {})] {})
      (fun full => if full = "P" then some 0 else none) [] rfl rfl
    change ((Build.defaultOf _ pointField.name _ _ _).run []).1.isOk = true
    rw [hrun]
    rfl

end Registry

end AvroIdl
