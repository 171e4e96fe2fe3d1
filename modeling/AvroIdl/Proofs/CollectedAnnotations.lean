import AvroIdl.Proofs.NodeReading
import AvroIdl.Proofs.OptionalType

/-!
# What annotations are collected into

Annotations are collected exactly if all of their values decode, no name is given twice, and those
with a meaning of their own have the form that it asks for. Each one then stands in its slot or
among the properties, and nowhere else. If they are not collected, the first annotation that is
wrong after those before it decides the one error that is given. There is no error only where the
message cannot be put together: an order that is no word is shown in it, and the printer throws if
its texts are not valid UTF-8.
-/
namespace AvroIdl

/-- The word of the order in small or capital letters. -/
def FieldOrder.IsSpeltBy (o : FieldOrder) (s : Text) : Prop :=
  List.Forall₂ (fun small b => b = small ∨ b = small - 0x20) o.text s

namespace Build

/-- The value has the form that the annotations of this name ask for, if they have a meaning of
their own. -/
structure Targets.Accepts (targets : Targets) (name : Text) (value : Json) : Prop where
  space : name = "namespace" → targets.space = true →
    ∃ s, value = .string s ∧ (s = [] ∨ Name.isValidNamespace s = true)
  aliases : name = "aliases" → targets.aliases = true → ∃ texts, value = .ofTexts texts
  order : name = "order" → targets.order = true →
    ∃ (s : Text) (o : FieldOrder), value = .string s ∧ o.IsSpeltBy s

instance (targets : Targets) (name : Text) : Decidable (targets.Takes name) :=
  inferInstanceAs (Decidable (_ ∨ _ ∨ _))

/-- What a list of annotations has to be. -/
structure Acceptable (targets : Targets) (as : List Annotation) : Prop where
  decoded : ∀ a ∈ as, ∃ value, Literal.decodeJson a.value = .ok value
  distinct : (as.map (·.name)).Nodup
  formed : ∀ a ∈ as, ∀ value, Literal.decodeJson a.value = .ok value →
    targets.Accepts a.name value

/-- A slot holds what the annotation of its name means, if the annotations of this name have a
meaning of their own and there is one. -/
def Holds {α : Type} (as : List Annotation) (name : Text) (isTarget : Bool) (slot : Option α)
    (means : Json → α → Prop) : Prop :=
  ∀ x, slot = some x ↔ isTarget = true ∧
    ∃ a ∈ as, a.name = name ∧ ∃ value, Literal.decodeJson a.value = .ok value ∧ means value x

/-- The set says what the annotations say: those with a meaning of their own in their slots, and all
others as properties in the same order. -/
structure Represents (targets : Targets) (as : List Annotation) (set : AnnotationSet) : Prop where
  space : Holds as "namespace" targets.space set.space fun value space =>
    ∃ s, value = .string s ∧ space = normalizeNamespace (some s)
  aliases : Holds as "aliases" targets.aliases set.aliases fun value texts =>
    value = .ofTexts texts
  order : Holds as "order" targets.order set.order fun value o =>
    ∃ s, value = .string s ∧ o.IsSpeltBy s
  properties : Values (as.filter fun a => ¬targets.Takes a.name) set.properties

/-- The error that an annotation after others gives: its value does not decode, its name has been
given before, or its value has not got the form that is asked for. -/
inductive Faults (file : Text) (targets : Targets) (before : List Annotation) (a : Annotation) :
    Diagnostic → Prop
  | literal {p : Literal.Problem} {span : Span}
      (fails : Literal.decodeJson a.value = .error (p, span)) :
      Faults file targets before a (p.diagnostic file span)
  | repeated {value : Json} {p : Problem} (decodes : Literal.decodeJson a.value = .ok value)
      (earlier : a.name ∈ before.map (·.name))
      (kind : p.kind = .duplicateNamespaceAnnotations ∨ p.kind = .duplicateAnnotations) :
      Faults file targets before a (p.diagnostic file a.span)
  | malformed {value : Json} {p : Problem} (decodes : Literal.decodeJson a.value = .ok value)
      (new : a.name ∉ before.map (·.name)) (refused : ¬targets.Accepts a.name value)
      (shown : a.name = "order" → targets.order = true → value.isPrintable = true)
      (kind : p.kind = .invalidName ∨ p.kind = .invalidAnnotations) :
      Faults file targets before a (p.diagnostic file a.span)

/-- The annotation gives an order that is no word and cannot be shown either. -/
structure Unprintable (targets : Targets) (before : List Annotation) (a : Annotation) : Prop where
  name : a.name = "order"
  target : targets.order = true
  new : a.name ∉ before.map (·.name)
  value : ∃ value, Literal.decodeJson a.value = .ok value ∧ ¬targets.Accepts a.name value ∧
    value.isPrintable = false

/-- Up to an order that cannot be shown, the annotations are what they have to be. -/
def BreaksOff (targets : Targets) (as : List Annotation) : Prop :=
  ∃ before a after, as = before ++ a :: after ∧ Acceptable targets before ∧
    Unprintable targets before a

/-- What collecting a list of annotations has to give. -/
inductive Collects (file : Text) (targets : Targets) (as : List Annotation) :
    Except Diagnostic AnnotationSet → Prop
  | ok {set : AnnotationSet} (acceptable : Acceptable targets as)
      (represents : Represents targets as set) : Collects file targets as (.ok set)
  | error {before after : List Annotation} {a : Annotation} {d : Diagnostic}
      (unacceptable : ¬Acceptable targets as) (split : as = before ++ a :: after)
      (earlier : Acceptable targets before) (fault : Faults file targets before a d) :
      Collects file targets as (.error d)

/-! ### The forms of values -/

theorem strings?_eq_some_iff {value : Json} {texts : List Text} :
    AnnotationSet.strings? value = some texts ↔ value = .ofTexts texts := by
  have hmap {elements : List Json} :
      elements.mapM Json.string? = some texts ↔ elements = texts.map .string := by
    induction elements generalizing texts with
    | nil => simp [eq_comm]
    | cons j js ih =>
      simp only [List.mapM_cons, Option.bind_eq_bind, Option.bind_eq_some_iff, ih]
      constructor
      · rintro ⟨t, ht, ts, rfl, htexts⟩
        cases j with
        | string s =>
          cases ht
          cases htexts
          rfl
        | _ => cases ht
      · intro h
        cases texts with
        | nil => cases h
        | cons t ts =>
          obtain ⟨rfl, rfl⟩ := List.cons_eq_cons.mp h
          exact ⟨t, rfl, ts, rfl, rfl⟩
  cases value with
  | array elements => simpa [AnnotationSet.strings?, Json.ofTexts] using hmap
  | _ => simp [AnnotationSet.strings?, Json.ofTexts]

theorem toLower_eq_iff {small b : UInt8} (h : Byte.isLower small = true) :
    Byte.toLower b = small ↔ b = small ∨ b = small - 0x20 := by
  simp only [Byte.isLower, Bool.and_eq_true, decide_eq_true_eq] at h
  simp only [Byte.toLower, Byte.isUpper, Bool.and_eq_true, decide_eq_true_eq]
  grind

theorem map_toLower_eq_iff {word s : Text} (h : ∀ small ∈ word, Byte.isLower small = true) :
    s.map Byte.toLower = word ↔
      List.Forall₂ (fun small b => b = small ∨ b = small - 0x20) word s := by
  induction word generalizing s with
  | nil => simp
  | cons small word ih =>
    obtain ⟨hsmall, hword⟩ := List.forall_mem_cons.mp h
    cases s with
    | nil => simp
    | cons b s =>
      rw [List.map_cons, List.cons_eq_cons, List.forall₂_cons, toLower_eq_iff hsmall, ih hword]

theorem ofText?_eq_some_iff {s : Text} {o : FieldOrder} :
    FieldOrder.ofText? (s.map Byte.toLower) = some o ↔ o.IsSpeltBy s := by
  have hsmall : o.text.all Byte.isLower = true := by
    cases o <;> rfl
  rw [FieldOrder.IsSpeltBy, ← map_toLower_eq_iff (List.all_eq_true.mp hsmall)]
  constructor
  · intro h
    have htext := List.find?_some h
    exact (beq_iff_eq.mp htext).symm
  · intro h
    rw [h]
    exact Document.FieldOrder.ofText?_text o

namespace Targets

variable {targets : Targets} {value : Json}

theorem accepts_space_iff (h : targets.space = true) : targets.Accepts "namespace" value ↔
    ∃ s, value = .string s ∧ (s = [] ∨ Name.isValidNamespace s = true) :=
  ⟨fun hv => hv.space rfl h, fun hv =>
    ⟨fun _ _ => hv, fun h => absurd h (by decide), fun h => absurd h (by decide)⟩⟩

theorem accepts_aliases_iff (h : targets.aliases = true) : targets.Accepts "aliases" value ↔
    ∃ texts, value = .ofTexts texts :=
  ⟨fun hv => hv.aliases rfl h, fun hv =>
    ⟨fun h => absurd h (by decide), fun _ _ => hv, fun h => absurd h (by decide)⟩⟩

theorem accepts_order_iff (h : targets.order = true) : targets.Accepts "order" value ↔
    ∃ (s : Text) (o : FieldOrder), value = .string s ∧ o.IsSpeltBy s :=
  ⟨fun hv => hv.order rfl h, fun hv =>
    ⟨fun h => absurd h (by decide), fun h => absurd h (by decide), fun _ _ => hv⟩⟩

/-- Every value will do for a property. -/
theorem accepts_of_not_takes {name : Text} (h : ¬targets.Takes name) :
    targets.Accepts name value :=
  ⟨fun hname ht => absurd (.inl ⟨hname, ht⟩) h, fun hname ht => absurd (.inr (.inl ⟨hname, ht⟩)) h,
    fun hname ht => absurd (.inr (.inr ⟨hname, ht⟩)) h⟩

end Targets

/-! ### Slots -/

namespace Holds

variable {α : Type} {as : List Annotation} {a : Annotation} {name : Text} {isTarget : Bool}
  {slot : Option α} {means : Json → α → Prop}

theorem nil : Holds [] name isTarget none means := fun _ => by simp

/-- An annotation without a meaning for the slot leaves it as it is. -/
theorem concat_other (h : Holds as name isTarget slot means)
    (hother : ¬(a.name = name ∧ isTarget = true)) :
    Holds (as ++ [a]) name isTarget slot means := by
  intro x
  rw [h x]
  refine and_congr_right fun htarget => ?_
  have hname : a.name ≠ name := fun hname => hother ⟨hname, htarget⟩
  simp [or_and_right, exists_or, hname]

/-- An annotation with the meaning of another slot leaves it as it is. -/
theorem concat_named (h : Holds as name isTarget slot means) {own : Text} (hown : a.name = own)
    (hne : own ≠ name) : Holds (as ++ [a]) name isTarget slot means :=
  h.concat_other fun hother => hne (hown.symm.trans hother.1)

/-- An annotation fills a slot that is empty. -/
theorem concat_fill (h : Holds as name isTarget none means) (hname : a.name = name)
    (htarget : isTarget = true) {value : Json} (hvalue : Literal.decodeJson a.value = .ok value)
    {x : α} (hx : means value x) (hunique : ∀ y, means value y → y = x) :
    Holds (as ++ [a]) name isTarget (some x) means := by
  intro y
  rw [Option.some.injEq]
  constructor
  · rintro rfl
    exact ⟨htarget, a, by simp, hname, value, hvalue, hx⟩
  · rintro ⟨-, b, hb, hbname, v, hv, hy⟩
    rcases List.mem_append.mp hb with hb | hb
    · cases (h y).mpr ⟨htarget, b, hb, hbname, v, hv, hy⟩
    · rw [List.mem_singleton.mp hb, hvalue] at hv
      cases hv
      exact (hunique y hy).symm

/-- A slot is filled exactly if there is an annotation of its name that means something. -/
theorem isSome_iff (h : Holds as name isTarget slot means) (htarget : isTarget = true)
    (hmeans : ∀ a ∈ as, a.name = name →
      ∃ value, Literal.decodeJson a.value = .ok value ∧ ∃ x, means value x) :
    slot.isSome = true ↔ name ∈ as.map (·.name) := by
  rw [Option.isSome_iff_exists, List.mem_map]
  constructor
  · rintro ⟨x, hx⟩
    obtain ⟨-, a, ha, hname, -⟩ := (h x).mp hx
    exact ⟨a, ha, hname⟩
  · rintro ⟨a, ha, hname⟩
    obtain ⟨value, hvalue, x, hx⟩ := hmeans a ha hname
    exact ⟨x, (h x).mpr ⟨htarget, a, ha, hname, value, hvalue, hx⟩⟩

end Holds

/-! ### One more annotation -/

section Step

variable {targets : Targets} {before : List Annotation} {a : Annotation} {set : AnnotationSet}
  {value : Json}

theorem Acceptable.concat (h : Acceptable targets before)
    (hvalue : Literal.decodeJson a.value = .ok value) (hnew : a.name ∉ before.map (·.name))
    (haccepts : targets.Accepts a.name value) : Acceptable targets (before ++ [a]) := by
  refine ⟨fun b hb => ?_, ?_, fun b hb v hv => ?_⟩
  · rcases List.mem_append.mp hb with hb | hb
    · exact h.decoded b hb
    · exact ⟨value, List.mem_singleton.mp hb ▸ hvalue⟩
  · rw [List.map_append, List.nodup_append]
    refine ⟨h.distinct, List.nodup_singleton _, fun x hx y hy hxy => ?_⟩
    rw [hxy, List.mem_singleton.mp hy] at hx
    exact hnew hx
  · rcases List.mem_append.mp hb with hb | hb
    · exact h.formed b hb v hv
    · rw [List.mem_singleton.mp hb] at hv ⊢
      rw [hvalue] at hv
      cases hv
      exact haccepts

/-- A wrong annotation cannot be made up for by others. -/
theorem Faults.not_acceptable {file : Text} {d : Diagnostic} {after : List Annotation}
    (h : Faults file targets before a d) : ¬Acceptable targets (before ++ a :: after) := by
  intro hall
  have ha : a ∈ before ++ a :: after := by simp
  cases h with
  | literal fails =>
    obtain ⟨value, hvalue⟩ := hall.decoded a ha
    rw [fails] at hvalue
    cases hvalue
  | repeated decodes earlier kind =>
    have hdistinct := hall.distinct
    rw [List.map_append, List.nodup_append] at hdistinct
    exact hdistinct.2.2 _ earlier _ List.mem_cons_self rfl
  | malformed decodes new refused shown kind => exact refused (hall.formed a ha _ decodes)

theorem Unprintable.not_acceptable {after : List Annotation} (h : Unprintable targets before a) :
    ¬Acceptable targets (before ++ a :: after) := by
  intro hall
  obtain ⟨value, hvalue, hrefused, -⟩ := h.value
  exact hrefused (hall.formed a (by simp) value hvalue)

/-- Where there is an error, the annotation could be shown. -/
theorem Faults.not_unprintable {file : Text} {d : Diagnostic}
    (h : Faults file targets before a d) : ¬Unprintable targets before a := by
  intro hu
  obtain ⟨value, hvalue, -, hunprintable⟩ := hu.value
  cases h with
  | literal fails =>
    rw [fails] at hvalue
    cases hvalue
  | repeated decodes earlier kind => exact hu.new earlier
  | malformed decodes new refused shown kind =>
    rw [decodes] at hvalue
    cases hvalue
    rw [shown hu.name hu.target] at hunprintable
    cases hunprintable

theorem Faults.isFault {file : Text} {d : Diagnostic} (h : Faults file targets before a d) :
    d.isFault = false := by
  have hkind : d.kind ≠ .fault := by
    cases h with
    | @literal p span fails => cases p <;> simp [Literal.Problem.diagnostic, Literal.Problem.kind]
    | repeated decodes earlier kind => rcases kind with h | h <;> simp [Problem.diagnostic, h]
    | malformed decodes new refused shown kind =>
      rcases kind with h | h <;> simp [Problem.diagnostic, h]
  simpa [Diagnostic.isFault] using hkind

theorem Acceptable.left {after : List Annotation} (h : Acceptable targets (before ++ after)) :
    Acceptable targets before := by
  refine ⟨fun b hb => h.decoded b (by simp [hb]), ?_, fun b hb => h.formed b (by simp [hb])⟩
  have hdistinct := h.distinct
  rw [List.map_append] at hdistinct
  exact hdistinct.of_append_left

/-- There is only one first annotation that is wrong after others that are not. -/
theorem eq_of_first_wrong {before' after after' : List Annotation} {a' : Annotation}
    (h : before ++ a :: after = before' ++ a' :: after') (hbefore : Acceptable targets before)
    (hbefore' : Acceptable targets before') (ha : ¬Acceptable targets (before ++ [a]))
    (ha' : ¬Acceptable targets (before' ++ [a'])) : before = before' ∧ a = a' := by
  rcases List.append_eq_append_iff.mp h with ⟨middle, rfl, hrest⟩ | ⟨middle, rfl, hrest⟩
  · cases middle with
    | nil => exact ⟨(List.append_nil _).symm, (List.cons.inj hrest).1⟩
    | cons x middle =>
      obtain ⟨rfl, -⟩ := List.cons.inj hrest
      rw [List.append_cons] at hbefore'
      exact absurd hbefore'.left ha
  · cases middle with
    | nil => exact ⟨List.append_nil _, ((List.cons.inj hrest).1).symm⟩
    | cons x middle =>
      obtain ⟨rfl, -⟩ := List.cons.inj hrest
      rw [List.append_cons] at hbefore
      exact absurd hbefore.left ha'

/-- What adding one more annotation gives. -/
inductive Adds (targets : Targets) (before : List Annotation) (a : Annotation) (value : Json) :
    Except Problem AnnotationSet → Prop
  | ok {set : AnnotationSet} (new : a.name ∉ before.map (·.name))
      (accepts : targets.Accepts a.name value)
      (represents : Represents targets (before ++ [a]) set) :
      Adds targets before a value (.ok set)
  | repeated {p : Problem} (earlier : a.name ∈ before.map (·.name))
      (kind : p.kind = .duplicateNamespaceAnnotations ∨ p.kind = .duplicateAnnotations) :
      Adds targets before a value (.error p)
  | malformed {p : Problem} (new : a.name ∉ before.map (·.name))
      (refused : ¬targets.Accepts a.name value)
      (shown : a.name = "order" → targets.order = true → value.isPrintable = true)
      (kind : p.kind = .invalidName ∨ p.kind = .invalidAnnotations) :
      Adds targets before a value (.error p)
  | broken {p : Problem} (unprintable : Unprintable targets before a) (kind : p.kind = .fault) :
      Adds targets before a value (.error p)

/-- An annotation with a meaning of its own is no property. -/
theorem values_concat_of_takes {ms : Members}
    (h : Values (before.filter fun a => ¬targets.Takes a.name) ms)
    (htakes : targets.Takes a.name) :
    Values ((before ++ [a]).filter fun a => ¬targets.Takes a.name) ms := by
  rw [List.filter_append]
  simpa [htakes] using h

/-- How an annotation with a meaning of its own is added: its slot has to be empty and its value to
have the form that is asked for. -/
theorem adds_slot {α : Type} {name : Text} {isTarget : Bool} {slot : Option α}
    {means : Json → α → Prop} {result : Except Problem AnnotationSet}
    (hacc : Acceptable targets before) (hvalue : Literal.decodeJson a.value = .ok value)
    (hslot : Holds before name isTarget slot means) (hname : a.name = name)
    (htarget : isTarget = true) (hmeans : ∀ v, targets.Accepts name v → ∃ x, means v x)
    (hunique : ∀ x y, means value x → means value y → y = x)
    (hfull : slot.isSome = true → ∃ p, result = .error p ∧
      (p.kind = .duplicateNamespaceAnnotations ∨ p.kind = .duplicateAnnotations))
    (hbad : slot = none → ¬targets.Accepts name value → name ∉ before.map (·.name) →
      Adds targets before a value result)
    (hfit : slot = none → targets.Accepts name value → ∀ x, means value x →
      ∃ set', result = .ok set' ∧
        (Holds (before ++ [a]) name isTarget (some x) means →
          Represents targets (before ++ [a]) set')) :
    Adds targets before a value result := by
  subst hname
  have hfilled : slot.isSome = true ↔ a.name ∈ before.map (·.name) :=
    hslot.isSome_iff htarget fun b hb hname => by
      obtain ⟨v, hv⟩ := hacc.decoded b hb
      exact ⟨v, hv, hmeans v (hname ▸ hacc.formed b hb v hv)⟩
  by_cases hsome : slot.isSome = true
  · obtain ⟨p, rfl, hkind⟩ := hfull hsome
    exact .repeated (hfilled.mp hsome) hkind
  · have hnew : a.name ∉ before.map (·.name) := fun hin => hsome (hfilled.mpr hin)
    obtain rfl : slot = none := by simpa using hsome
    by_cases haccepts : targets.Accepts a.name value
    · obtain ⟨x, hx⟩ := hmeans value haccepts
      obtain ⟨set', rfl, hrepresents⟩ := hfit rfl haccepts x hx
      exact .ok hnew haccepts
        (hrepresents (hslot.concat_fill rfl htarget hvalue hx fun y => hunique x y hx))
    · exact hbad rfl haccepts hnew

theorem adds_space (h : Represents targets before set) (hacc : Acceptable targets before)
    (hvalue : Literal.decodeJson a.value = .ok value) (hname : a.name = "namespace")
    (htarget : targets.space = true) : Adds targets before a value (set.addSpace value) := by
  refine adds_slot hacc hvalue h.space hname htarget (fun v hv => ?_) ?_ ?_ ?_ ?_
  · obtain ⟨s, rfl, -⟩ := (Targets.accepts_space_iff htarget).mp hv
    exact ⟨_, s, rfl, rfl⟩
  · rintro x y ⟨s, rfl, rfl⟩ ⟨s', hs', rfl⟩
    cases hs'
    rfl
  · intro hsome
    exact ⟨.duplicateNamespace, by simp only [AnnotationSet.addSpace, hsome, if_true], .inl rfl⟩
  · intro hnone hrefused hnew
    obtain ⟨p, hp, hkind⟩ : ∃ p, set.addSpace value = .error p ∧
        (p.kind = .invalidName ∨ p.kind = .invalidAnnotations) := by
      rw [Targets.accepts_space_iff htarget] at hrefused
      cases value with
      | string s =>
        have hform : (s.isEmpty || Name.isValidNamespace s) = false := by
          simpa using fun h => hrefused ⟨s, rfl, h⟩
        exact ⟨.illegalNamespace s, by simp [AnnotationSet.addSpace, hnone, hform], .inl rfl⟩
      | _ => exact ⟨.namespaceNotString, by simp [AnnotationSet.addSpace, hnone], .inr rfl⟩
    rw [hp]
    rw [← hname] at hrefused hnew
    exact .malformed hnew hrefused (fun h => absurd (hname.symm.trans h) (by decide)) hkind
  · rintro hnone haccepts x ⟨s, rfl, rfl⟩
    obtain ⟨s', hs', hform⟩ := (Targets.accepts_space_iff htarget).mp haccepts
    cases hs'
    have hform : (s.isEmpty || Name.isValidNamespace s) = true := by simpa using hform
    refine ⟨{ set with space := some (normalizeNamespace (some s)) },
      by simp [AnnotationSet.addSpace, hnone, hform],
      fun hslot => ⟨hslot, h.aliases.concat_named hname (by decide),
        h.order.concat_named hname (by decide), ?_⟩⟩
    exact values_concat_of_takes h.properties (.inl ⟨hname, htarget⟩)

theorem adds_aliases (h : Represents targets before set) (hacc : Acceptable targets before)
    (hvalue : Literal.decodeJson a.value = .ok value) (hname : a.name = "aliases")
    (htarget : targets.aliases = true) : Adds targets before a value (set.addAliases value) := by
  refine adds_slot hacc hvalue h.aliases hname htarget
    (fun v => (Targets.accepts_aliases_iff htarget).mp) (fun x y hx hy => ?_) ?_ ?_ ?_
  · exact Option.some.inj
      ((strings?_eq_some_iff.mpr hy).symm.trans (strings?_eq_some_iff.mpr hx))
  · intro hsome
    exact ⟨_, by rw [AnnotationSet.addAliases, if_pos hsome], .inr rfl⟩
  · intro hnone hrefused hnew
    have hstrings : AnnotationSet.strings? value = none :=
      Option.eq_none_iff_forall_ne_some.mpr fun texts htexts =>
        hrefused ((Targets.accepts_aliases_iff htarget).mpr ⟨texts, strings?_eq_some_iff.mp htexts⟩)
    have hp : set.addAliases value = .error .aliasesNotStrings := by
      simp [AnnotationSet.addAliases, hnone, hstrings]
    rw [hp]
    rw [← hname] at hrefused hnew
    exact .malformed hnew hrefused (fun h => absurd (hname.symm.trans h) (by decide)) (.inr rfl)
  · intro hnone _ texts htexts
    refine ⟨{ set with aliases := some texts },
      by simp [AnnotationSet.addAliases, hnone, strings?_eq_some_iff.mpr htexts],
      fun hslot => ⟨h.space.concat_named hname (by decide), hslot,
        h.order.concat_named hname (by decide), ?_⟩⟩
    exact values_concat_of_takes h.properties (.inr (.inl ⟨hname, htarget⟩))

theorem adds_order (h : Represents targets before set) (hacc : Acceptable targets before)
    (hvalue : Literal.decodeJson a.value = .ok value) (hname : a.name = "order")
    (htarget : targets.order = true) : Adds targets before a value (set.addOrder value) := by
  have hread {o : FieldOrder} :
      (value.string?.bind fun s => FieldOrder.ofText? (s.map Byte.toLower)) = some o ↔
        ∃ s, value = .string s ∧ o.IsSpeltBy s := by
    cases value with
    | string s => simp [Json.string?, ofText?_eq_some_iff]
    | _ => simp [Json.string?]
  refine adds_slot hacc hvalue h.order hname htarget (fun v hv => ?_) (fun x y hx hy => ?_) ?_ ?_ ?_
  · obtain ⟨s, o, rfl, ho⟩ := (Targets.accepts_order_iff htarget).mp hv
    exact ⟨o, s, rfl, ho⟩
  · exact Option.some.inj ((hread.mpr hy).symm.trans (hread.mpr hx))
  · intro hsome
    exact ⟨_, by rw [AnnotationSet.addOrder, if_pos hsome], .inr rfl⟩
  · intro hnone hrefused hnew
    have horder := Option.eq_none_iff_forall_ne_some.mpr fun o ho => by
      obtain ⟨s, hs, ho⟩ := hread.mp ho
      exact hrefused ((Targets.accepts_order_iff htarget).mpr ⟨s, o, hs, ho⟩)
    have hp : set.addOrder value =
        .error (if value.isPrintable then .badOrder value else .unprintableOrder value) := by
      simp [AnnotationSet.addOrder, hnone, horder]
    rw [hp]
    rw [← hname] at hrefused hnew
    split
    · next hprintable => exact .malformed hnew hrefused (fun _ _ => hprintable) (.inr rfl)
    · next hunprintable =>
      rw [Bool.not_eq_true] at hunprintable
      exact .broken ⟨hname, htarget, hnew, value, hvalue, hrefused, hunprintable⟩ rfl
  · intro hnone _ o ho
    refine ⟨{ set with order := some o }, by simp [AnnotationSet.addOrder, hnone, hread.mpr ho],
      fun hslot => ⟨h.space.concat_named hname (by decide),
        h.aliases.concat_named hname (by decide), hslot, ?_⟩⟩
    exact values_concat_of_takes h.properties (.inr (.inr ⟨hname, htarget⟩))

/-- The keys of the properties are the names of the annotations that they come from. -/
theorem Represents.mem_keys_iff (h : Represents targets before set)
    (htakes : ¬targets.Takes a.name) :
    a.name ∈ set.properties.keys ↔ a.name ∈ before.map (·.name) := by
  have hkeys : set.properties.keys =
      (before.filter fun a => ¬targets.Takes a.name).map (·.name) := by
    rw [Members.keys, eq_comm, ← List.forall₂_eq_eq_eq, List.forall₂_map_left_iff,
      List.forall₂_map_right_iff]
    exact h.properties.imp fun a m ham => ham.1.symm
  rw [hkeys, List.mem_map, List.mem_map]
  refine exists_congr fun b => and_congr_left fun hb => ?_
  simp [List.mem_filter, hb, htakes]

theorem adds_property (h : Represents targets before set)
    (hvalue : Literal.decodeJson a.value = .ok value) (htakes : ¬targets.Takes a.name) :
    Adds targets before a value (set.addProperty a.name value) := by
  unfold AnnotationSet.addProperty
  split
  · next hin =>
    rw [Members.contains_eq_true_iff, h.mem_keys_iff htakes] at hin
    exact .repeated hin (.inr rfl)
  · next hnew =>
    rw [Members.contains_eq_true_iff, h.mem_keys_iff htakes] at hnew
    refine .ok hnew (Targets.accepts_of_not_takes htakes) ⟨?_, ?_, ?_, ?_⟩
    · exact h.space.concat_other fun hother => htakes (.inl hother)
    · exact h.aliases.concat_other fun hother => htakes (.inr (.inl hother))
    · exact h.order.concat_other fun hother => htakes (.inr (.inr hother))
    · have hlast : ([a].filter fun a => ¬targets.Takes a.name) = [a] := by simp [htakes]
      rw [Values, List.filter_append, hlast]
      exact List.rel_append h.properties (.cons ⟨rfl, hvalue⟩ .nil)

/-- Adding one annotation to a set that says what the annotations before it say. -/
theorem adds_add (h : Represents targets before set) (hacc : Acceptable targets before)
    (hvalue : Literal.decodeJson a.value = .ok value) :
    Adds targets before a value (set.add targets a.name value) := by
  unfold AnnotationSet.add
  split
  · next hspace => exact adds_space h hacc hvalue hspace.1 hspace.2
  · next hspace =>
    split
    · next haliases => exact adds_aliases h hacc hvalue haliases.1 haliases.2
    · next haliases =>
      split
      · next horder => exact adds_order h hacc hvalue horder.1 horder.2
      · next horder =>
        exact adds_property h hvalue fun htakes => htakes.elim hspace (·.elim haliases horder)

end Step

/-! ### All annotations -/

/-- The annotations that have been added are those before the ones that are left, and the set says
what they say. Either the printer throws at one of the others, or all are collected as they are. -/
theorem collects_collectFrom (file : Text) (targets : Targets) (before as : List Annotation)
    {set : AnnotationSet} (h : Represents targets before set) (hacc : Acceptable targets before) :
    (BreaksOff targets (before ++ as) ∧
        ∃ d, AnnotationSet.collectFrom file targets set as = .error d ∧ d.isFault = true) ∨
      Collects file targets (before ++ as) (AnnotationSet.collectFrom file targets set as) := by
  induction as generalizing before set with
  | nil =>
    rw [List.append_nil]
    exact .inr (.ok hacc h)
  | cons a as ih =>
    rw [AnnotationSet.collectFrom]
    split
    · next p span hfails =>
      have hfault : Faults file targets before a (p.diagnostic file span) := .literal hfails
      exact .inr (.error hfault.not_acceptable rfl hacc hfault)
    · next value hvalue =>
      have hadds := adds_add h hacc hvalue
      split
      · next p hp =>
        rw [hp] at hadds
        have hreport (hfault : Faults file targets before a (p.diagnostic file a.span)) :
            Collects file targets (before ++ a :: as) (.error (p.diagnostic file a.span)) :=
          .error hfault.not_acceptable rfl hacc hfault
        cases hadds with
        | repeated earlier kind => exact .inr (hreport (.repeated hvalue earlier kind))
        | malformed new refused shown kind =>
          exact .inr (hreport (.malformed hvalue new refused shown kind))
        | broken unprintable kind =>
          refine .inl ⟨⟨before, a, as, rfl, hacc, unprintable⟩, _, rfl, ?_⟩
          simp [Diagnostic.isFault, Problem.diagnostic, kind]
      · next set' hset' =>
        rw [hset'] at hadds
        cases hadds with
        | ok new accepts represent =>
          rw [List.append_cons]
          exact ih _ represent (hacc.concat hvalue new accepts)

/-- What is collected or reported says that nothing has been thrown. -/
theorem Collects.not_breaksOff {file : Text} {targets : Targets} {as : List Annotation}
    {result : Except Diagnostic AnnotationSet} (h : Collects file targets as result) :
    ¬BreaksOff targets as := by
  rintro ⟨before, a, after, rfl, hbefore, hunprintable⟩
  cases h with
  | ok acceptable represents => exact hunprintable.not_acceptable acceptable
  | error unacceptable split earlier fault =>
    obtain ⟨rfl, rfl⟩ := eq_of_first_wrong split hbefore earlier
      hunprintable.not_acceptable fault.not_acceptable
    exact fault.not_unprintable hunprintable

theorem collects_or_breaksOff (file : Text) (targets : Targets) (as : List Annotation) :
    (BreaksOff targets as ∧
        ∃ d, AnnotationSet.collect file targets as = .error d ∧ d.isFault = true) ∨
      Collects file targets as (AnnotationSet.collect file targets as) :=
  collects_collectFrom file targets [] as ⟨.nil, .nil, .nil, .nil⟩
    ⟨by simp, List.nodup_nil, by simp⟩

/-- Collecting annotations throws exactly at an order that cannot be shown. -/
theorem isFault_collect_iff (file : Text) {targets : Targets} {as : List Annotation} :
    (∃ d, AnnotationSet.collect file targets as = .error d ∧ d.isFault = true) ↔
      BreaksOff targets as := by
  rcases collects_or_breaksOff file targets as with ⟨hbreaks, hfault⟩ | hcollects
  · exact iff_of_true hfault hbreaks
  · refine iff_of_false ?_ hcollects.not_breaksOff
    rintro ⟨d, hd, hisFault⟩
    rw [hd] at hcollects
    cases hcollects with
    | error unacceptable split earlier fault =>
      rw [fault.isFault] at hisFault
      cases hisFault

/-- Unless the printer throws, annotations are collected into what they say exactly if they are
acceptable, and otherwise the first one that is wrong decides the one error. The printer throws
exactly at an order that is no word and not valid UTF-8, if the annotations before it are
acceptable; then there is neither a set nor an error. -/
theorem collects_collect (file : Text) (targets : Targets) (as : List Annotation) :
    ((∃ d, AnnotationSet.collect file targets as = .error d ∧ d.isFault = true) ↔
        BreaksOff targets as) ∧
      (¬BreaksOff targets as →
        Collects file targets as (AnnotationSet.collect file targets as)) := by
  refine ⟨isFault_collect_iff file, fun hbreaks => ?_⟩
  exact (collects_or_breaksOff file targets as).resolve_left fun h => hbreaks h.1

/-- A list with an order in capitals, and one with an order that is the byte `FF`. -/
def orderOf (order : Text) : List Annotation := [⟨"order", .scalar .string order {}, {}⟩]

theorem collects_capital_order :
    ¬BreaksOff { order := true } (orderOf "IGNORE") ∧
      Collects [] { order := true } (orderOf "IGNORE") (.ok { order := some .ignore }) := by
  obtain ⟨hfault, hcollects⟩ := collects_collect [] { order := true } (orderOf "IGNORE")
  have hrun : AnnotationSet.collect [] { order := true } (orderOf "IGNORE") =
      .ok { order := some .ignore } := rfl
  have hbreaks : ¬BreaksOff { order := true } (orderOf "IGNORE") := by
    rw [← hfault, hrun]
    rintro ⟨d, hd, -⟩
    cases hd
  exact ⟨hbreaks, hrun ▸ hcollects hbreaks⟩

/-- The order is not acceptable, and yet no error is reported: the printer throws. -/
theorem exists_unreported_order :
    ¬Acceptable { order := true } (orderOf [0xFF]) ∧
      ∃ d, AnnotationSet.collect [] { order := true } (orderOf [0xFF]) = .error d ∧
        d.isFault = true ∧ ¬Collects [] { order := true } (orderOf [0xFF]) (.error d) := by
  have hbreaks : BreaksOff { order := true } (orderOf [0xFF]) :=
    (isFault_collect_iff []).mp ⟨_, rfl, rfl⟩
  obtain ⟨before, a, after, hsplit, -, hunprintable⟩ := id hbreaks
  exact ⟨hsplit ▸ hunprintable.not_acceptable, _, rfl, rfl, fun h => h.not_breaksOff hbreaks⟩

end Build

end AvroIdl
