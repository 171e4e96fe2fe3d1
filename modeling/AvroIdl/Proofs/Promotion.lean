import AvroIdl.Proofs.WrittenNodes

/-!
# Promotion to logical types

A primitive or fixed type becomes logical exactly if its properties ask for a meaning that it can
have. Some of its properties are then members of their own, and the others move to the new type, but
what is written keeps every key and value. Only a decimal without a scale gains a scale of zero.
-/
namespace AvroIdl

/-- Members with distinct keys and the same values at them differ in their order only. -/
theorem Members.perm_of_get?_eq {ms others : Members} (hms : ms.Distinct)
    (hothers : others.Distinct) (h : ∀ key, ms.get? key = others.get? key) : ms.Perm others := by
  rw [List.perm_ext_iff_of_nodup (List.Nodup.of_map _ hms) (List.Nodup.of_map _ hothers)]
  rintro ⟨key, value⟩
  constructor
  · intro hm
    exact mem_of_get? (h key ▸ hms.get?_of_mem hm)
  · intro hm
    exact mem_of_get? (h key ▸ hothers.get?_of_mem hm)

namespace Decimal

theorem parameter?_eq_some_iff {properties : Members} {key : Text} {n : Nat} :
    parameter? properties key = some n ↔
      properties.get? key = some (.integer n) ∧ n ≤ parameterLimit := by
  constructor
  · intro h
    refine ⟨?_, Schema.parameter?_le h⟩
    unfold parameter? at h
    split at h
    · next i hi =>
      split at h
      · next hrange =>
        have hn : (n : Int) = i := by
          have hcast := Option.some.inj h
          omega
        rw [hi, hn]
      · cases h
    · cases h
  · rintro ⟨hget, hn⟩
    exact Document.parameter?_of_get? hget hn

theorem scale?_eq_some_iff {properties : Members} {n : Nat} :
    scale? properties = some n ↔
      (properties.get? "scale" = some (.integer n) ∧ n ≤ parameterLimit) ∨
        (properties.get? "scale" = none ∧ n = 0) := by
  unfold scale? Members.contains
  cases hscale : properties.get? "scale" with
  | none => simp [eq_comm]
  | some j => simp [parameter?_eq_some_iff, hscale]

end Decimal

theorem LogicalKind.ofText?_eq_some_iff {t : Text} {k : LogicalKind} :
    ofText? t = some k ↔ t = k.text := by
  constructor
  · intro h
    have htext := List.find?_some h
    exact (beq_iff_eq.mp htext).symm
  · rintro rfl
    exact Document.LogicalKind.ofText?_text k

namespace Schema

/-- The precision among the properties is a whole number that a decimal over the type can have, and
the scale, if there is one, is a whole number that does not exceed it. -/
def HasDigits (s : Schema) : Prop :=
  ∃ precision : Int, s.properties.get? "precision" = some (.integer precision) ∧
    1 ≤ precision ∧ precision ≤ 2147483647 ∧
    (∀ j, s.properties.get? "scale" = some j →
      ∃ scale : Int, j = .integer scale ∧ 0 ≤ scale ∧ scale ≤ precision) ∧
    ∀ size, s.fixedSize? = some size → precision ≤ Decimal.maxPrecision size

/-- The properties of a type ask for a meaning that it can have. -/
structure Asks (s : Schema) (kind : LogicalKind) : Prop where
  named : s.properties.get? "logicalType" = some (.string kind.text)
  accepted : kind.accepts s.kind = true
  decimal : kind = .decimal → s.HasDigits
  duration : kind = .duration → s.fixedSize? = some 12

section Meaning

variable {s : Schema} {kind : LogicalKind} {precision scale : Nat}

theorem meaning?_eq_some_iff :
    s.meaning? = some (kind, precision, scale) ↔
      s.properties.get? "logicalType" = some (.string kind.text) ∧
        kind.accepts s.kind = true ∧ logicalParameters? kind s = some (precision, scale) := by
  constructor
  · intro h
    refine ⟨?_, meaning?_eq_some h⟩
    obtain ⟨k, hk, h⟩ := Option.bind_eq_some_iff.mp h
    obtain ⟨name, hname, hk⟩ := Option.bind_eq_some_iff.mp hk
    obtain ⟨j, hj, hname⟩ := Option.bind_eq_some_iff.mp hname
    have hkind : k = kind := by
      split at h
      · obtain ⟨_, -, he⟩ := Option.map_eq_some_iff.mp h
        exact (Prod.mk.inj he).1
      · cases h
    rw [LogicalKind.ofText?_eq_some_iff, hkind] at hk
    cases j with
    | string t =>
      cases hname
      rw [hj, hk]
    | _ => cases hname
  · rintro ⟨hname, ha, hp⟩
    simp [meaning?, hname, Json.string?, Document.LogicalKind.ofText?_text, ha, hp]

theorem logicalParameters?_decimal_iff :
    logicalParameters? .decimal s = some (precision, scale) ↔
      Decimal.parameter? s.properties "precision" = some precision ∧
        Decimal.scale? s.properties = some scale ∧ 1 ≤ precision ∧ scale ≤ precision ∧
        ∀ size, s.fixedSize? = some size → precision ≤ Decimal.maxPrecision size := by
  have hall : ∀ n, (s.fixedSize?.all fun size => decide (n ≤ Decimal.maxPrecision size)) = true ↔
      ∀ size, s.fixedSize? = some size → n ≤ Decimal.maxPrecision size := by
    intro n
    cases s.fixedSize? <;> simp
  unfold logicalParameters?
  constructor
  · intro h
    obtain ⟨p, hp, h⟩ := Option.bind_eq_some_iff.mp h
    obtain ⟨c, hc, h⟩ := Option.bind_eq_some_iff.mp h
    dsimp only at h
    split at h
    · next hfits =>
      cases h
      exact ⟨hp, hc, hfits.1, hfits.2.1, (hall _).mp hfits.2.2⟩
    · cases h
  · rintro ⟨hp, hc, hone, hle, hfits⟩
    have hdigits := (hall precision).mpr hfits
    simp [hp, hc, hone, hle, hdigits]

theorem parameterLimit_eq : (Decimal.parameterLimit : Int) = 2147483647 := by
  decide +kernel

theorem hasDigits_iff :
    s.HasDigits ↔ ∃ precision scale, logicalParameters? .decimal s = some (precision, scale) := by
  have hlimit := parameterLimit_eq
  simp only [logicalParameters?_decimal_iff, Decimal.parameter?_eq_some_iff,
    Decimal.scale?_eq_some_iff]
  constructor
  · rintro ⟨p, hprecision, hone, hle, hscale, hsize⟩
    obtain ⟨precision, rfl⟩ := Int.eq_ofNat_of_zero_le (by omega : 0 ≤ p)
    cases hget : s.properties.get? "scale" with
    | none =>
      refine ⟨precision, 0, ⟨hprecision, by omega⟩, .inr ⟨rfl, rfl⟩, by omega, by omega, ?_⟩
      intro size hs
      exact_mod_cast hsize size hs
    | some j =>
      obtain ⟨c, rfl, hzero, hc⟩ := hscale j hget
      obtain ⟨scale, rfl⟩ := Int.eq_ofNat_of_zero_le hzero
      refine ⟨precision, scale, ⟨hprecision, by omega⟩, .inl ⟨rfl, by omega⟩, by omega, by omega,
        ?_⟩
      intro size hs
      exact_mod_cast hsize size hs
  · rintro ⟨precision, scale, ⟨hprecision, hp⟩, hscale, hone, hc, hsize⟩
    refine ⟨precision, hprecision, by omega, by omega, ?_, ?_⟩
    · intro j hj
      rcases hscale with ⟨hget, -⟩ | ⟨hnone, -⟩
      · rw [hget] at hj
        cases hj
        exact ⟨scale, rfl, by omega, by omega⟩
      · rw [hnone] at hj
        cases hj
    · intro size hs
      exact_mod_cast hsize size hs

/-- A type has a meaning exactly if it asks for one. -/
theorem asks_iff :
    s.Asks kind ↔ ∃ precision scale, s.meaning? = some (kind, precision, scale) := by
  simp only [meaning?_eq_some_iff]
  constructor
  · rintro ⟨hname, ha, hdecimal, hduration⟩
    cases kind with
    | decimal =>
      obtain ⟨precision, scale, h⟩ := hasDigits_iff.mp (hdecimal rfl)
      exact ⟨precision, scale, hname, ha, h⟩
    | duration =>
      refine ⟨0, 0, hname, ha, ?_⟩
      simp [logicalParameters?, hduration rfl]
    | date | timeMillis | timestampMillis | localTimestampMillis | uuid =>
      exact ⟨0, 0, hname, ha, rfl⟩
  · rintro ⟨precision, scale, hname, ha, h⟩
    refine ⟨hname, ha, ?_, ?_⟩
    · rintro rfl
      exact hasDigits_iff.mpr ⟨precision, scale, h⟩
    · rintro rfl
      exact (suits_of_logicalParameters? h).1

theorem exists_asks_iff : (∃ kind, s.Asks kind) ↔ s.meaning?.isSome = true := by
  rw [Option.isSome_iff_exists]
  constructor
  · rintro ⟨kind, h⟩
    obtain ⟨precision, scale, h⟩ := asks_iff.mp h
    exact ⟨_, h⟩
  · rintro ⟨⟨kind, precision, scale⟩, h⟩
    exact ⟨kind, asks_iff.mpr ⟨precision, scale, h⟩⟩

theorem meaning?_of_get?_eq_none (h : s.properties.get? "logicalType" = none) :
    s.meaning? = none := by
  rw [meaning?, h]
  rfl

/-- The other properties ask for nothing. -/
theorem promote_promote (s : Schema) : s.promote.promote = s.promote := by
  cases h : s.meaning? with
  | none =>
    have hsame := promote_of_meaning?_eq_none h
    rw [hsame, hsame]
  | some meaning =>
    obtain ⟨kind, precision, scale⟩ := meaning
    rw [promote_eq s, h]
    apply promote_of_meaning?_eq_none
    apply meaning?_of_get?_eq_none
    change (s.properties.without (logicalKeys kind)).get? "logicalType" = none
    rw [Members.get?_without, if_pos]
    cases kind <;> decide

end Meaning

end Schema

namespace Document

open Schema (logicalKeys logicalOver)

/-- What is written for a primitive or fixed type before its properties. -/
def leafMembers (enclosing : Option Text) : Schema → Members
  | .fixed h size => fixedMembers h enclosing size
  | s => member "type" (.string s.kind.text)

/-- The scale that is written for a decimal although its properties have none. -/
def addedScale (kind : LogicalKind) (properties : Members) : Members :=
  if kind = .decimal ∧ properties.contains "scale" = false then member "scale" (.integer 0) else []

section Written

variable {registry : Registry} {enclosing : Option Text} {written : List Text} {s : Schema}

/-- The names of the types that are written with a primitive or fixed type. -/
def leafNames (s : Schema) : List Text := s.head?.toList.map Head.full

theorem run_writeSchema_leaf (hs : s.kind.isPrimitive = true ∨ s.kind = .fixed)
    (hnew : ∀ h ∈ s.head?, h.full ∉ written) (hp : s.properties ≠ []) :
    (writeSchema registry s enclosing).run written =
      (.object ((leafMembers enclosing s).merge s.properties), leafNames s ++ written) := by
  cases s with
  | primitive p n =>
    change n.properties ≠ [] at hp
    have hne : n.properties.isEmpty = false := by simpa using hp
    rw [writeSchema, writeWith, hne]
    rfl
  | fixed h size =>
    rw [writeSchema, writeWith, once_run (hnew h rfl)]
    rfl
  | record h isError fields => rcases hs with hs | hs <;> cases hs
  | enumeration h symbols default => rcases hs with hs | hs <;> cases hs
  | compound shape parts n => cases shape <;> rcases hs with hs | hs <;> cases hs
  | reference r => rcases hs with hs | hs <;> cases hs

theorem run_writeSchema_logicalOver (hs : s.kind.isPrimitive = true ∨ s.kind = .fixed)
    (hnew : ∀ h ∈ s.head?, h.full ∉ written) (kind : LogicalKind) (precision scale : Nat)
    (properties : Members) :
    (writeSchema registry (logicalOver kind precision scale properties
      (s.mapNote fun n => { n with properties := [] })) enclosing).run written =
      (.object ((leafMembers enclosing s ++ logicalMembers kind precision scale).merge properties),
        leafNames s ++ written) := by
  cases s with
  | primitive p n =>
    rw [writeSchema, logicalOver, Schema.mapNote, writeWith_logical]
    · rfl
    · rintro head size ⟨⟩
  | fixed h size =>
    have hfull : { h with properties := [] }.full ∉ written := hnew h rfl
    rw [writeSchema, logicalOver, Schema.mapNote, writeWith]
    dsimp only
    rw [once_run hfull]
    rfl
  | record h isError fields => rcases hs with hs | hs <;> cases hs
  | enumeration h symbols default => rcases hs with hs | hs <;> cases hs
  | compound shape parts n => cases shape <;> rcases hs with hs | hs <;> cases hs
  | reference r => rcases hs with hs | hs <;> cases hs

theorem get?_addedScale_of_ne {kind : LogicalKind} {properties : Members} {key : Text}
    (h : ¬(kind = .decimal ∧ key = "scale")) : (addedScale kind properties).get? key = none := by
  unfold addedScale
  split
  · next hadded =>
    have hkey : key ≠ "scale" := fun hkey => h ⟨hadded.1, hkey⟩
    rw [get?_member, if_neg hkey]
  · rfl

/-- The scale of a decimal stands among the properties, or is added. -/
theorem get?_scale_or {properties : Members} {scale : Nat}
    (h : Decimal.scale? properties = some scale) :
    (properties.get? "scale").or ((addedScale .decimal properties).get? "scale") =
      some (.integer scale) := by
  rw [Decimal.scale?_eq_some_iff] at h
  rcases h with ⟨hget, -⟩ | ⟨hnone, rfl⟩
  · rw [hget, Option.some_or]
  · have hmissing : properties.contains "scale" = false := by
      rw [Members.contains, hnone, Option.isSome_none]
    rw [hnone, addedScale, if_pos ⟨rfl, hmissing⟩]
    rfl

/-- What moves into members of its own and what stays a property are the properties again. -/
theorem get?_logicalMembers_or {kind : LogicalKind} {precision scale : Nat}
    (h : s.meaning? = some (kind, precision, scale)) (key : Text) :
    ((logicalMembers kind precision scale).get? key).or
        ((s.properties.without (logicalKeys kind)).get? key) =
      (s.properties.get? key).or ((addedScale kind s.properties).get? key) := by
  obtain ⟨hname, -, hparameters⟩ := Schema.meaning?_eq_some_iff.mp h
  rw [get?_logicalMembers, Members.get?_without]
  by_cases hkey : key = "logicalType"
  · rw [if_pos hkey, hkey, hname]
    rfl
  rw [if_neg hkey]
  by_cases hprecision : kind = .decimal ∧ key = "precision"
  · obtain ⟨rfl, rfl⟩ := hprecision
    obtain ⟨hp, -⟩ := Schema.logicalParameters?_decimal_iff.mp hparameters
    rw [if_pos ⟨rfl, rfl⟩, (Decimal.parameter?_eq_some_iff.mp hp).1]
    rfl
  rw [if_neg hprecision]
  by_cases hscale : kind = .decimal ∧ key = "scale"
  · obtain ⟨rfl, rfl⟩ := hscale
    obtain ⟨-, hc, -⟩ := Schema.logicalParameters?_decimal_iff.mp hparameters
    rw [if_pos ⟨rfl, rfl⟩, get?_scale_or hc, Option.some_or]
  have hother : key ∉ logicalKeys kind := by
    cases kind with
    | decimal =>
      have hne : key ≠ "precision" ∧ key ≠ "scale" :=
        ⟨fun h => hprecision ⟨rfl, h⟩, fun h => hscale ⟨rfl, h⟩⟩
      simp [logicalKeys, hkey, hne]
    | _ => simpa [logicalKeys] using hkey
  rw [if_neg hscale, if_neg hother, get?_addedScale_of_ne hscale, Option.none_or, Option.or_none]

theorem distinct_leafMembers (enclosing : Option Text) (s : Schema) :
    (leafMembers enclosing s).Distinct := by
  cases s with
  | fixed h size => exact (Node.keys_fixedMembers enclosing h size).nodup (by decide)
  | _ => exact List.nodup_singleton _

theorem distinct_leafMembers_append (enclosing : Option Text) (s : Schema) (kind : LogicalKind)
    (precision scale : Nat) :
    (leafMembers enclosing s ++ logicalMembers kind precision scale).Distinct := by
  rw [Members.Distinct, Members.keys_append]
  have hlogical := Node.keys_logicalMembers kind precision scale
  cases s with
  | fixed h size =>
    exact ((Node.keys_fixedMembers enclosing h size).append hlogical).nodup (by decide)
  | _ => exact ((Node.keys_member _ _).append hlogical).nodup (by decide)

theorem scale_notMem_leafMembers (enclosing : Option Text) (s : Schema) :
    ("scale" : Text) ∉ (leafMembers enclosing s).keys := by
  cases s with
  | fixed h size =>
    intro hscale
    have hkey := within_fixedMembers h enclosing size _ hscale
    exact absurd hkey (by decide)
  | _ =>
    have hne : ("scale" : Text) ≠ "type" := by decide
    intro hscale
    exact hne (List.mem_singleton.mp hscale)

/-- A promoted type is written with the members of the type that it was, and with the scale of a
decimal that had none. -/
theorem written_promote {s : Schema} (hs : s.kind.isPrimitive = true ∨ s.kind = .fixed)
    (registry : Registry) (enclosing : Option Text) {written : List Text}
    (hnew : ∀ h ∈ s.head?, h.full ∉ written) :
    (s.promote.kind = .logical ↔ ∃ kind, s.Asks kind) ∧
      ((¬∃ kind, s.Asks kind) → s.promote = s) ∧
      (∀ kind, s.Asks kind → ∃ (ms promoted : Members) (names : List Text),
        (writeSchema registry s enclosing).run written = (.object ms, names) ∧
        (writeSchema registry s.promote enclosing).run written = (.object promoted, names) ∧
        ms.Distinct ∧ promoted.Distinct ∧ promoted.Perm (ms ++ addedScale kind s.properties)) ∧
      s.promote.promote = s.promote := by
  have hkeep : (¬∃ kind, s.Asks kind) → s.promote = s := by
    rw [Schema.exists_asks_iff]
    intro hnone
    exact Schema.promote_of_meaning?_eq_none (by simpa using hnone)
  refine ⟨⟨fun hlogical => ?_, ?_⟩, hkeep, ?_, Schema.promote_promote s⟩
  · by_contra hnone
    rw [hkeep hnone] at hlogical
    rw [hlogical] at hs
    rcases hs with hs | hs <;> cases hs
  · rintro ⟨kind, hasks⟩
    obtain ⟨precision, scale, hmeaning⟩ := Schema.asks_iff.mp hasks
    rw [Schema.promote_eq, hmeaning]
    rfl
  · intro kind hasks
    obtain ⟨precision, scale, hmeaning⟩ := Schema.asks_iff.mp hasks
    have hne : s.properties ≠ [] := by
      intro hnone
      have hname := hasks.named
      rw [hnone] at hname
      cases hname
    have hplain : ((leafMembers enclosing s).merge s.properties).Distinct :=
      (distinct_leafMembers enclosing s).merge _
    have hpromoted := (distinct_leafMembers_append enclosing s kind precision scale).merge
      (s.properties.without (logicalKeys kind))
    refine ⟨_, _, _, run_writeSchema_leaf hs hnew hne, ?_, hplain, hpromoted, ?_⟩
    · rw [Schema.promote_eq, hmeaning]
      exact run_writeSchema_logicalOver hs hnew kind precision scale _
    · apply Members.perm_of_get?_eq hpromoted
      · unfold addedScale
        split
        · next hscale =>
          apply hplain.append_new
          rw [← Members.get?_eq_none_iff, Members.get?_merge,
            Members.get?_eq_none_iff.mpr (scale_notMem_leafMembers enclosing s), Option.none_or]
          exact Members.get?_eq_none_iff.mpr (Members.contains_eq_false_iff.mp hscale.2)
        · rwa [List.append_nil]
      · intro key
        rw [Members.get?_merge, Members.get?_append, Members.get?_append, Members.get?_merge,
          Option.or_assoc, Option.or_assoc, get?_logicalMembers_or hmeaning]

/-- An amount with a precision and no scale. -/
def amount : Schema :=
  .fixed { name := "Amount", properties := [("precision", .integer 10), ("unit", .string "EUR"),
    ("logicalType", .string "decimal")] } 16

theorem amount_promote :
    (∀ h ∈ amount.head?, h.full ∉ ([] : List Text)) ∧ amount.promote.kind = .logical ∧
      ∃ (ms promoted : Members) (names : List Text),
        (writeSchema {} amount none).run [] = (.object ms, names) ∧
        (writeSchema {} amount.promote none).run [] = (.object promoted, names) ∧
        promoted.Perm (ms ++ member "scale" (.integer 0)) := by
  have hnew : ∀ h ∈ amount.head?, h.full ∉ ([] : List Text) := by simp
  have hasks : amount.Asks .decimal := by
    refine ⟨rfl, rfl, fun _ => ⟨10, rfl, by decide, by decide, ?_, ?_⟩, by simp⟩
    · intro j hj
      cases hj
    · rintro size ⟨⟩
      decide +kernel
  obtain ⟨hlogical, -, hwritten, -⟩ := written_promote (.inr rfl) {} none hnew
  obtain ⟨ms, promoted, names, hms, hpromoted, -, -, hperm⟩ := hwritten .decimal hasks
  exact ⟨hnew, hlogical.mpr ⟨.decimal, hasks⟩, ms, promoted, names, hms, hpromoted, hperm⟩

end Written

end Document

end AvroIdl
