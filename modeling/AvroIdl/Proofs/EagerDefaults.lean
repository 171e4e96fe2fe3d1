import AvroIdl.Proofs.DefaultAcceptance
import AvroIdl.Proofs.Reporting

/-!
# Defaults that are refused early

A declaration checks its default before the types that it refers to are known, and the registry
checks it again when they are. What the early check refuses, the later one refuses too, whatever
has been registered by then: the first looks through no reference, and a value that fits where more
references are known fits where fewer are.
-/
namespace AvroIdl

namespace Build

open Default Report

variable {c : Context}

/-- Only a default that decodes can be refused as a default, and then the early check has found a
mismatch. -/
theorem defaultOf_refuses {name owner : Text} {s : Schema} {default : Option JsonNode}
    {w w' : List Diagnostic} {d : Diagnostic}
    (h : (defaultOf c name owner s default).run w = (.error d, w'))
    (hkind : d.kind = .invalidDefault) :
    ∃ node v, default = some node ∧ Literal.decodeJson node = .ok v ∧
      mismatch? Schema.Lookup.none (branchesFor v s) v ≠ none := by
  cases default with
  | none => cases h
  | some node =>
    rcases bind_run_eq_error h with hstop | ⟨v, w₁, hv, hrest⟩
    · exact absurd hkind ((admits_kind_ne.decodedJson c node).stops hstop)
    · refine ⟨node, v, rfl, ?_, ?_⟩
      · unfold decodedJson at hv
        split at hv
        · next value hvalue =>
          cases hv
          exact hvalue
        · cases hv
      · intro hnone
        dsimp only at hrest
        rw [hnone] at hrest
        cases hrest

/-- A field is refused for its default only after its type has been built. -/
theorem fieldOf_refuses {owner : Text} {type : TypeNode} {typeDoc : Option Text} {f : Declarator}
    {w w' : List Diagnostic} {d : Diagnostic}
    (h : (fieldOf c owner type typeDoc f).run w = (.error d, w'))
    (hkind : d.kind = .invalidDefault) :
    ∃ node v s w₁, f.default = some node ∧ Literal.decodeJson node = .ok v ∧
      (typeOf c type).run w = (.ok s, w₁) ∧
      mismatch? Schema.Lookup.none (branchesFor v s) v ≠ none := by
  rcases bind_run_eq_error h with hstop | ⟨set, w₁, hset, hfield⟩
  · have hfault : PermitsFaults fun d => d.kind ≠ .invalidDefault := fun p _ _ h => by
      simp [Problem.diagnostic, h]
    have hne := (tellsOnly_ofExcept
      (admits_kind_ne.collect c.file _ f.annotations fun _ => hfault)).stops hstop
    exact absurd hkind hne
  -- reading the annotations leaves the warnings as they are
  have hw : w₁ = w := by
    cases hcollect : AnnotationSet.collect c.file { aliases := true, order := true } f.annotations
    all_goals
      rw [hcollect] at hset
      cases hset
    rfl
  subst hw
  dsimp only at hfield
  split at hfield
  · cases hfield
    cases hkind
  · rcases bind_run_eq_error hfield with hstop | ⟨s, w₂, hs, hdefault⟩
    · exact absurd hkind ((admits_kind_ne.typeOf c type).stops hstop)
    · rcases bind_run_eq_error hdefault with hstop | ⟨result, w₃, -, hdone⟩
      · obtain ⟨node, v, hnode, hv, hmismatch⟩ := defaultOf_refuses hstop hkind
        exact ⟨node, v, s, w₂, hnode, hv, hs, hmismatch⟩
      · cases hdone

end Build

namespace Registry

open Build Default

/-- What does not fit a type of which no reference is known is reported wherever the registry
checks it, however the references of the type are bound. -/
theorem reports_of_mismatch {r : Registry} {messages : List Message} {owner file : Text}
    {f : Field} {s : Schema} {v : Json} {place : Placement} {left : Nat}
    (hc : r.Checks messages owner file f) (hdefault : f.default = some v)
    (htype : f.type = s.bind place left) (h : mismatch? Schema.Lookup.none s v ≠ none) :
    ∃ report ∈ r.validateDefaults messages,
      r.defaultProblem? owner file f = some report ∧ report.kind = .invalidDefault := by
  have hmismatch : mismatch? r.lookup f.type v ≠ none := by
    intro hfits
    rw [htype] at hfits
    have hnone : ∀ ref t, Schema.Lookup.none ref = some t → r.lookup ref = some t := nofun
    exact h (fits_of_fits_bind (fits_of_fewer hnone hfits))
  obtain ⟨m, hm⟩ := Option.ne_none_iff_exists'.mp hmismatch
  have hproblem : ∃ report, r.defaultProblem? owner file f = some report ∧
      report.kind = .invalidDefault := by
    rw [defaultProblem?, hdefault, Option.bind_some, hm]
    exact ⟨_, rfl, rfl⟩
  obtain ⟨report, hreport, hkind⟩ := hproblem
  exact ⟨report, mem_validateDefaults_iff.mpr ⟨owner, file, f, hc, hreport⟩, hreport, hkind⟩

/-- Early checks give no false alarm. What fits where more references are known fits where fewer
are; and a default for which a declaration is refused is reported by the registry too, for every
field that has the declared type and the default, whatever the registry holds. -/
theorem early_refusal_is_confirmed :
    (∀ (known lookup : Schema.Lookup) (s : Schema) (v : Json),
      (∀ ref t, known ref = some t → lookup ref = some t) →
        mismatch? lookup s v = none → mismatch? known s v = none) ∧
    ∀ (c : Context) (owner : Text) (type : TypeNode) (typeDoc : Option Text) (d : Declarator)
      (w w' : List Diagnostic) (refusal : Diagnostic),
      (fieldOf c owner type typeDoc d).run w = (.error refusal, w') →
      refusal.kind = .invalidDefault →
      ∃ node v s w₁, d.default = some node ∧ Literal.decodeJson node = .ok v ∧
        (typeOf c type).run w = (.ok s, w₁) ∧
        ∀ (r : Registry) (messages : List Message) (owner' file : Text) (f : Field)
          (place : Placement) (left : Nat),
          r.Checks messages owner' file f → f.default = some v →
          f.type = (branchesFor v s).bind place left →
          ∃ report ∈ r.validateDefaults messages,
            r.defaultProblem? owner' file f = some report ∧ report.kind = .invalidDefault := by
  refine ⟨fun known lookup s v hknown hfits => fits_of_fewer hknown hfits, ?_⟩
  intro c owner type typeDoc d w w' refusal hrun hkind
  obtain ⟨node, v, s, w₁, hnode, hv, hs, hmismatch⟩ := fieldOf_refuses hrun hkind
  exact ⟨node, v, s, w₁, hnode, hv, hs, fun r messages owner' file f place left hc hdefault htype =>
    reports_of_mismatch hc hdefault htype hmismatch⟩

/-- The declaration of an array of items, whose default is the string "none". -/
def itemsType : TypeNode := .array (.reference { text := "Item" } {}) {}

def itemsDeclarator : Declarator :=
  { name := { text := "items" }, default := some (.scalar .string "none" {}) }

/-- The same field once the items have been registered. -/
def itemsField : Field :=
  { name := "items", default := some (.string "none")
    type :=
      .compound .array [.reference { name := "Item", span := some {}, binding := some 0 }]
        { span := some {} } }

def itemsRegistry : Registry :=
  { entries :=
      [⟨.record { name := "Item" } false [], []⟩,
        ⟨.record { name := "List" } false [itemsField], []⟩] }

theorem early_refusal_of_items :
    (∃ refusal,
      (fieldOf { file := [] } "record 'List'" itemsType none itemsDeclarator).run [] =
        (.error refusal, []) ∧ refusal.kind = .invalidDefault) ∧
      (∃ report ∈ itemsRegistry.validateDefaults [],
        itemsRegistry.defaultProblem? "record 'List'" [] itemsField = some report ∧
          report.kind = .invalidDefault) ∧
      mismatch? Schema.Lookup.none itemsField.type (.array [.object []]) = none := by
  have hrefused : ∃ refusal,
      (fieldOf { file := [] } "record 'List'" itemsType none itemsDeclarator).run [] =
        (.error refusal, []) ∧ refusal.kind = .invalidDefault := ⟨_, rfl, rfl⟩
  refine ⟨hrefused, ?_, ?_⟩
  · obtain ⟨refusal, hrun, hkind⟩ := hrefused
    obtain ⟨node, v, s, w₁, hnode, hv, hs, hreports⟩ :=
      early_refusal_is_confirmed.2 _ _ _ _ _ _ _ _ hrun hkind
    cases hnode
    cases hv
    cases hs
    have hentry : (⟨.record { name := "List" } false [itemsField], []⟩ : Entry) ∈
        itemsRegistry.entries := by
      simp [itemsRegistry]
    exact hreports itemsRegistry [] _ _ itemsField
      (fun full => if full = "Item" then some 0 else none) Schema.bindingLevels
      (.field hentry rfl (by simp)) rfl rfl
  · have hnone : ∀ ref t, Schema.Lookup.none ref = some t → itemsRegistry.lookup ref = some t :=
      nofun
    exact early_refusal_is_confirmed.1 _ itemsRegistry.lookup _ _ hnone (by decide)

end Registry

end AvroIdl
