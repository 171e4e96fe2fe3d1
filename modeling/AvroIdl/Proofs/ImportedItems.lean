import AvroIdl.Proofs.Gathering
import Mathlib.Data.List.Forall2
import Mathlib.Data.List.Induction

/-!
# What becomes of imported items

An import is merged item by item, and each item meets what was there before the import together
with what the import has added so far. Here the outcome is told by the imported lists alone: an
item is admitted or refused by what stands before it. All that was there stays, the admitted items
come after it in order, and each of the others is reported once.
-/
namespace AvroIdl

namespace Import

section Sorting

variable {α : Type}

/-- Each item of a list with those before it. -/
def withEarlier (l : List α) : List (List α × α) := l.zipIdx.map fun (a, n) => (l.take n, a)

theorem withEarlier_concat (l : List α) (a : α) :
    withEarlier (l ++ [a]) = withEarlier l ++ [(l, a)] := by
  have hbefore : ∀ x ∈ l.zipIdx, ((l ++ [a]).take x.2, x.1) = (l.take x.2, x.1) := by
    rintro ⟨b, n⟩ hmem
    have hn : n < l.length := by simpa using (List.mem_zipIdx hmem).2.1
    rw [List.take_append_of_le_length (Nat.le_of_lt hn)]
  simp only [withEarlier, List.zipIdx_append, List.map_append, List.map_congr_left hbefore]
  simp

theorem map_snd_withEarlier (l : List α) : (withEarlier l).map Prod.snd = l := by
  simp [withEarlier, Function.comp_def]

variable (p : List α → α → Prop) [∀ earlier a, Decidable (p earlier a)]

/-- The items that are admitted after those before them. -/
def admitted (l : List α) : List α :=
  ((withEarlier l).filter fun (earlier, a) => p earlier a).map Prod.snd

/-- The other items, each with those before it. -/
def refused (l : List α) : List (List α × α) :=
  (withEarlier l).filter fun (earlier, a) => ¬p earlier a

@[simp]
theorem admitted_nil : admitted p [] = [] := rfl

@[simp]
theorem refused_nil : refused p [] = [] := rfl

theorem admitted_concat (l : List α) (a : α) :
    admitted p (l ++ [a]) = admitted p l ++ if p l a then [a] else [] := by
  by_cases h : p l a <;> simp [admitted, withEarlier_concat, List.filter_append, h]

theorem refused_concat (l : List α) (a : α) :
    refused p (l ++ [a]) = refused p l ++ if p l a then [] else [(l, a)] := by
  by_cases h : p l a <;> simp [refused, withEarlier_concat, List.filter_append, h]

/-- No item is lost and none counts twice. -/
theorem admitted_append_refused_perm (l : List α) :
    (admitted p l ++ (refused p l).map Prod.snd).Perm l := by
  have hparts := List.filter_append_perm (fun x : List α × α => decide (p x.1 x.2)) (withEarlier l)
  have hitems := hparts.map Prod.snd
  rw [List.map_append, map_snd_withEarlier] at hitems
  simpa [admitted, refused] using hitems

end Sorting

section Types

/-- Whether an entry could be registered where its name is free. -/
def Registrable (e : Registry.Entry) : Prop :=
  e.schema.isNamed = true ∧
    Registry.isLegalName e.schema.core.ownName.1 e.schema.core.ownName.2 = true

instance (e : Registry.Entry) : Decidable (Registrable e) := inferInstanceAs (Decidable (_ ∧ _))

/-- A registry admits a type of an import if its name is legal, and new to the registry and in the
import. An earlier type that cannot be registered does not take up its name. -/
def AdmitsType (r : Registry) (earlier : List Registry.Entry) (e : Registry.Entry) : Prop :=
  Registrable e ∧ e.schema.full ∉ r.names ∧
    ∀ e' ∈ earlier, Registrable e' → e'.schema.full ≠ e.schema.full

instance (r : Registry) (earlier : List Registry.Entry) (e : Registry.Entry) :
    Decidable (AdmitsType r earlier e) := inferInstanceAs (Decidable (_ ∧ _))

/-- The file that an imported type is taken to come from. -/
def originIn (r : Registry) (e : Registry.Entry) : Text :=
  if e.origin.isEmpty then r.file else e.origin

/-- A registry with the types of an import that it admits. -/
def grown (r : Registry) (types : List Registry.Entry) : Registry :=
  { r with entries :=
      r.entries ++ (admitted (AdmitsType r) types).map fun e => ⟨e.schema, originIn r e⟩ }

/-- How a type is reported that a registry refuses. -/
inductive TypeReport (r : Registry) (e : Registry.Entry) : Diagnostic → Prop where
  | redefined {existing : Registry.Entry} (hmem : existing ∈ r.entries)
      (hname : existing.schema.full = e.schema.full) :
      TypeReport r e
        { kind := .duplicateDefinition, file := e.origin
          message :=
            "Type '" ++ e.schema.full ++ "' is defined in both '" ++ existing.origin ++ "' and '" ++
              e.origin ++ "'." }
  | unnamed (hnew : e.schema.full ∉ r.names) (hnamed : e.schema.isNamed = false) :
      TypeReport r e
        { kind := .invalidName, span := e.schema.span, file := originIn r e
          message :=
            "Only records, enums and fixed types can be registered, not " ++ e.schema.describe ++
              "." }
  | illegal (hnew : e.schema.full ∉ r.names) (hnamed : e.schema.isNamed = true)
      (hlegal :
        Registry.isLegalName e.schema.core.ownName.1 e.schema.core.ownName.2 = false) :
      TypeReport r e
        { kind := .invalidName, span := e.schema.core.span, file := originIn r e
          message := "Illegal type name '" ++ e.schema.core.full ++ "'." }

variable {r : Registry} {e : Registry.Entry}

theorem addType_of_admitted (he : Registrable e) (hnew : e.schema.full ∉ r.names) :
    addType r e = ({ r with entries := r.entries ++ [⟨e.schema, originIn r e⟩] }, none) := by
  have hnone := Registry.entry?_eq_none_iff.mpr hnew
  have hinsert : r.insert e.schema (originIn r e) =
      .ok { r with entries := r.entries ++ [⟨e.schema, originIn r e⟩] } := by
    simp [Registry.insert, he.1, he.2, hnone]
  have hregister : r.register e.schema e.origin =
      .ok { r with entries := r.entries ++ [⟨e.schema, originIn r e⟩] } := by
    unfold Registry.register
    rw [originIn] at hinsert
    simp only [hinsert]
    rfl
  simp [addType, hnone, hregister]

theorem addType_of_refused (h : Registrable e → e.schema.full ∈ r.names) :
    ∃ report, addType r e = (r, some report) ∧ TypeReport r e report := by
  cases hentry : r.entry? e.schema.full with
  | some existing =>
    obtain ⟨n, hn, hplace⟩ := Option.bind_eq_some_iff.mp hentry
    obtain ⟨found, hfound, hname⟩ := Registry.exists_entry_of_indexOf? hn
    obtain rfl : found = existing := Option.some.inj (hfound.symm.trans hplace)
    exact ⟨_, by simp only [addType, hentry], .redefined (List.mem_of_getElem? hfound) hname⟩
  | none =>
    -- the name is free, so that it is the type itself that cannot be registered
    have hnew := Registry.entry?_eq_none_iff.mp hentry
    have hregistrable : ¬Registrable e := fun he => hnew (h he)
    cases hnamed : e.schema.isNamed with
    | false =>
      refine ⟨_, ?_, .unnamed hnew hnamed⟩
      simp [addType, hentry, Registry.register, Registry.insert, hnamed,
        Registry.Problem.diagnostic, originIn]
    | true =>
      have hlegal :
          Registry.isLegalName e.schema.core.ownName.1 e.schema.core.ownName.2 = false := by
        simpa [Registrable, hnamed] using hregistrable
      refine ⟨_, ?_, .illegal hnew hnamed hlegal⟩
      simp [addType, hentry, Registry.register, Registry.insert, hnamed, hlegal,
        Registry.Problem.diagnostic, originIn]

theorem addTypes_concat (r : Registry) (types : List Registry.Entry) (e : Registry.Entry) :
    addTypes r (types ++ [e]) =
      ((addType (addTypes r types).1 e).1,
        (addTypes r types).2 ++ (addType (addTypes r types).1 e).2.toList) := by
  induction types generalizing r with
  | nil => simp [addTypes]
  | cons first types ih => simp [addTypes, ih]

theorem grown_concat_of_admitted {types : List Registry.Entry} (h : AdmitsType r types e) :
    grown r (types ++ [e]) =
      { grown r types with
        entries := (grown r types).entries ++ [⟨e.schema, originIn (grown r types) e⟩] } := by
  simp [grown, admitted_concat, h, originIn]

theorem grown_concat_of_refused {types : List Registry.Entry} (h : ¬AdmitsType r types e) :
    grown r (types ++ [e]) = grown r types := by
  simp [grown, admitted_concat, h]

/-- The names that are taken after some types of an import: those that were, and those of the types
that can be registered. -/
theorem mem_names_grown {types : List Registry.Entry} {full : Text} :
    full ∈ (grown r types).names ↔
      full ∈ r.names ∨ ∃ e ∈ types, Registrable e ∧ e.schema.full = full := by
  induction types using List.reverseRecOn with
  | nil => simp [grown, Registry.names]
  | append_singleton types e ih =>
    by_cases h : AdmitsType r types e
    · have hnames : (grown r (types ++ [e])).names = (grown r types).names ++ [e.schema.full] := by
        simp [grown_concat_of_admitted h, Registry.names]
      rw [hnames, List.mem_append, ih, List.mem_singleton]
      grind [AdmitsType]
    · rw [grown_concat_of_refused h, ih]
      -- a refused type adds no name: it cannot be registered, or its name is taken
      grind [AdmitsType]

theorem admitsType_iff {types : List Registry.Entry} :
    AdmitsType r types e ↔ Registrable e ∧ e.schema.full ∉ (grown r types).names := by
  rw [mem_names_grown]
  grind [AdmitsType]

/-- A registry after an import, and the reports of the types that it refused. -/
theorem addTypes_eq (r : Registry) (types : List Registry.Entry) :
    ∃ reports, addTypes r types = (grown r types, reports) ∧
      List.Forall₂ (fun (earlier, e) report => TypeReport (grown r earlier) e report)
        (refused (AdmitsType r) types) reports := by
  induction types using List.reverseRecOn with
  | nil => exact ⟨[], by simp [addTypes, grown], .nil⟩
  | append_singleton types e ih =>
    obtain ⟨reports, hrun, hreports⟩ := ih
    rw [addTypes_concat, hrun, refused_concat]
    by_cases h : AdmitsType r types e
    · obtain ⟨he, hnew⟩ := admitsType_iff.mp h
      refine ⟨reports, ?_, ?_⟩
      · simp [addType_of_admitted he hnew, grown_concat_of_admitted h]
      · simpa [h] using hreports
    · have hrefused : Registrable e → e.schema.full ∈ (grown r types).names := by
        simpa [admitsType_iff] using h
      obtain ⟨report, hadd, hreport⟩ := addType_of_refused hrefused
      refine ⟨reports ++ [report], ?_, ?_⟩
      · simp [hadd, grown_concat_of_refused h]
      · rw [if_neg h]
        exact List.rel_append hreports (.cons hreport .nil)

end Types

section Messages

/-- A message is admitted if its name is new to the messages that are known and in the import. -/
def AdmitsMessage (known earlier : List Message) (m : Message) : Prop :=
  m.name ∉ known.map (·.name) ∧ m.name ∉ earlier.map (·.name)

instance (known earlier : List Message) (m : Message) : Decidable (AdmitsMessage known earlier m) :=
  inferInstanceAs (Decidable (_ ∧ _))

/-- How a message is reported whose name is taken. -/
def messageReport (file : Text) (path : Path) (m : Message) : Diagnostic :=
  { kind := .duplicateDefinition, file := path.text
    message :=
      "Message '" ++ m.name ++ "' is defined in both '" ++ file ++ "' and '" ++ path.text ++ "'." }

variable {file : Text} {path : Path} {known : List Message}

theorem addMessages_concat (messages : List Message) (m : Message) :
    addMessages file path known (messages ++ [m]) =
      let (added, reports) := addMessages file path known messages
      if m.name ∈ added.map (·.name) then (added, reports ++ [messageReport file path m])
      else (added ++ [m], reports) := by
  induction messages generalizing known with
  | nil =>
    have hany : (known.any fun k => k.name == m.name) = true ↔ m.name ∈ known.map (·.name) := by
      simp
    simp only [List.nil_append, addMessages, hany]
    rfl
  | cons first messages ih =>
    simp only [List.cons_append, addMessages]
    split
    · rw [ih]
      dsimp only
      split <;> rfl
    · exact ih

/-- The names that are taken after some messages of an import: all that have come up. -/
theorem mem_names_admitted {messages : List Message} {name : Text} :
    name ∈ (known ++ admitted (AdmitsMessage known) messages).map (·.name) ↔
      name ∈ known.map (·.name) ∨ name ∈ messages.map (·.name) := by
  induction messages using List.reverseRecOn with
  | nil => simp
  | append_singleton messages m ih =>
    rw [admitted_concat, ← List.append_assoc, List.map_append, List.mem_append, ih]
    by_cases h : AdmitsMessage known messages m
    · simp [h, or_assoc]
    · have htaken : m.name ∈ known.map (·.name) ∨ m.name ∈ messages.map (·.name) := by
        simpa [AdmitsMessage, or_iff_not_imp_left] using h
      grind

theorem admitsMessage_iff {messages : List Message} {m : Message} :
    AdmitsMessage known messages m ↔
      m.name ∉ (known ++ admitted (AdmitsMessage known) messages).map (·.name) := by
  rw [mem_names_admitted, not_or, AdmitsMessage]

/-- The messages after an import, and the reports of those that it repeats. -/
theorem addMessages_run (messages : List Message) :
    addMessages file path known messages =
      (known ++ admitted (AdmitsMessage known) messages,
        (refused (AdmitsMessage known) messages).map fun (_, m) => messageReport file path m) := by
  induction messages using List.reverseRecOn with
  | nil => simp [addMessages]
  | append_singleton messages m ih =>
    rw [addMessages_concat, ih, admitted_concat, refused_concat]
    dsimp only
    by_cases h : AdmitsMessage known messages m
    · have hnew := admitsMessage_iff.mp h
      rw [if_neg hnew, if_pos h, if_pos h, List.append_assoc, List.append_nil]
    · have htaken := not_not.mp (mt admitsMessage_iff.mpr h)
      rw [if_pos htaken, if_neg h, if_neg h, List.append_nil, List.map_append]
      rfl

end Messages

end Import

namespace Build

open Import

/-- An import leaves what was there, adds the items that are new in order, and reports each of the
others once. It stops if there is one to report. -/
theorem mergeImport_run (i : Imports) (d : ImportDecl) (path : Path) (types : List Registry.Entry)
    (messages : List Message) (s : State) :
    ∃ typeReports reports,
      List.Forall₂ (fun (earlier, e) report => TypeReport (grown s.registry earlier) e report)
          (refused (AdmitsType s.registry) types) typeReports ∧
        reports = typeReports ++
          (refused (AdmitsMessage s.messages) messages).map (fun (_, m) =>
            messageReport s.registry.file path m) ∧
        (mergeImport i d path types messages).run s =
          (if reports = [] then .ok ⟨⟩
            else .error
              { kind := .duplicateDefinition, span := some d.span, file := i.importer.text
                message :=
                  "Import '" ++ path.text ++ "' redefines " ++ Text.ofNat reports.length ++
                    (if reports.length = 1 then " name." else " names.")
                related := reports },
            { s with
              registry := { s.registry with
                entries := s.registry.entries ++
                  (admitted (AdmitsType s.registry) types).map fun e =>
                    ⟨e.schema, originIn s.registry e⟩ }
              messages := s.messages ++ admitted (AdmitsMessage s.messages) messages }) ∧
        (admitted (AdmitsType s.registry) types ++
          (refused (AdmitsType s.registry) types).map Prod.snd).Perm types ∧
        (admitted (AdmitsMessage s.messages) messages ++
          (refused (AdmitsMessage s.messages) messages).map Prod.snd).Perm messages := by
  obtain ⟨typeReports, htypes, hreports⟩ := addTypes_eq s.registry types
  refine ⟨typeReports, _, hreports, rfl, ?_, admitted_append_refused_perm _ _,
    admitted_append_refused_perm _ _⟩
  generalize hall : typeReports ++ _ = reports
  have hmerge : merge s.registry s.messages path types messages =
      ⟨grown s.registry types, s.messages ++ admitted (AdmitsMessage s.messages) messages,
        reports⟩ := by
    rw [merge, htypes, addMessages_run, ← hall]
  unfold mergeImport
  rw [get_bind_run, hmerge]
  cases reports with
  | nil => rfl
  | cons first rest => rfl

end Build

end AvroIdl
