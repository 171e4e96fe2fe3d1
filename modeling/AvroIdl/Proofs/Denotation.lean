import AvroIdl.Proofs.CompiledUnit
import AvroIdl.Proofs.ReadBack
import AvroIdl.Proofs.RegistryTable
import AvroIdl.Proofs.Reporting

/-!
# What declarations denote

A declaration that is no import denotes a type or a message in its context, whatever has been
declared before it. A build adds what its declarations denote, from the first to the last; it goes
through exactly if all of them denote something and no name is declared twice.
-/
namespace AvroIdl

namespace Declaration

/-- The type that is declared in a context. -/
def type? (c : Build.Context) : Declaration → Option Schema
  | .record d => ((Build.recordOf c d).run []).1.toOption
  | .enum d => (Build.enumOf c d).toOption
  | .fixed d => (Build.fixedOf c d).toOption
  | .file _ | .message _ => none

def message? (c : Build.Context) : Declaration → Option Message
  | .message d => ((Build.messageOf c d).run []).1.toOption
  | _ => none

def Denotes (c : Build.Context) (d : Declaration) : Prop :=
  (d.type? c).isSome ∨ (d.message? c).isSome

variable {c : Build.Context} {d : Declaration}

theorem message?_of_type? {s : Schema} (h : d.type? c = some s) : d.message? c = none := by
  cases d with
  | message d => cases h
  | _ => rfl

theorem fresh_of_type? {s : Schema} (h : d.type? c = some s) : s.Fresh := by
  cases d with
  | record d => exact Build.recordOf_gives c d [] trivial s _ (Prod.ext (eq_ok_of_toOption h) rfl)
  | enum d => exact Build.enumOf_yields c d s (eq_ok_of_toOption h)
  | fixed d => exact Build.fixedOf_yields c d s (eq_ok_of_toOption h)
  | file d => cases h
  | message d => cases h

theorem fresh_of_message? {m : Message} (h : d.message? c = some m) : m.Fresh := by
  cases d with
  | message d => exact Build.messageOf_gives c d [] trivial m _ (Prod.ext (eq_ok_of_toOption h) rfl)
  | _ => cases h

end Declaration

namespace Registry

theorem insert_eq_ok_iff {r r' : Registry} {s : Schema} {origin : Text} :
    r.insert s origin = .ok r' ↔
      (s.isNamed = true ∧ isLegalName s.core.ownName.1 s.core.ownName.2 = true ∧ s.full ∉ r.names) ∧
        r' = { r with entries := r.entries ++ [⟨s, origin⟩] } := by
  constructor
  · intro h
    obtain ⟨hnamed, hlegal, hnew, hr'⟩ := insert_eq_ok h
    exact ⟨⟨hnamed, hlegal, hnew⟩, hr'⟩
  · rintro ⟨⟨hnamed, hlegal, hnew⟩, rfl⟩
    simp [insert, hnamed, hlegal, entry?_eq_none_iff.mpr hnew]

theorem Lawful.of_append {r : Registry} {es : List Entry}
    (h : Lawful { r with entries := r.entries ++ es }) : r.Lawful where
  named e he := h.named e (List.mem_append_left _ he)
  legal e he := h.legal e (List.mem_append_left _ he)
  distinct := by
    have hnames := h.distinct
    simp only [names, List.map_append] at hnames
    exact hnames.of_append_left

theorem Lawful.append_iff {r : Registry} (hr : r.Lawful) {s : Schema} (origin : Text) :
    Lawful { r with entries := r.entries ++ [⟨s, origin⟩] } ↔
      s.isNamed = true ∧ isLegalName s.core.ownName.1 s.core.ownName.2 = true ∧
        s.full ∉ r.names := by
  constructor
  · intro h
    have hlast : (⟨s, origin⟩ : Entry) ∈ r.entries ++ [⟨s, origin⟩] := by simp
    refine ⟨h.named _ hlast, h.legal _ hlast, fun hmem => ?_⟩
    have hnames := h.distinct
    simp only [names, List.map_append, List.nodup_append] at hnames
    exact hnames.2.2 _ hmem _ (by simp) rfl
  · intro h
    exact hr.insert (insert_eq_ok_iff.mpr ⟨h, rfl⟩)

theorem toOption_register {r : Registry} {s : Schema} {file : Text} :
    (r.register s file).toOption = (r.insert s (originOf r.file file)).toOption := by
  unfold register originOf
  dsimp only
  cases r.insert s (if file.isEmpty then r.file else file) <;> rfl

end Registry

namespace Build

open Registry (originOf)

/-- The types and messages of a build. -/
structure Content where
  registry : Registry
  messages : List Message

def State.content (s : State) : Content := ⟨s.registry, s.messages⟩

/-- What a computation leaves unless it stops. -/
def left {α : Type} : Except Diagnostic α × State → Option Content
  | (.ok _, s) => some s.content
  | (.error _, _) => none

namespace Content

/-- The content with what a declaration denotes, unless it denotes nothing or its name is taken. -/
def add? (c : Context) (k : Content) (d : Declaration) : Option Content :=
  match d.type? c with
  | some s =>
    (k.registry.register s c.file).toOption.map fun registry => { k with registry := registry }
  | none =>
    (d.message? c).bind fun m =>
      if k.messages.any fun known => known.name == m.name then none
      else some { k with messages := k.messages ++ [m] }

/-- The content with all that declarations denote. -/
def grown (c : Context) (k : Content) (ds : List Declaration) : Content where
  registry :=
    { k.registry with
      entries := k.registry.entries ++
        (ds.filterMap (Declaration.type? c)).map fun s => ⟨s, originOf k.registry.file c.file⟩ }
  messages := k.messages ++ ds.filterMap (Declaration.message? c)

/-- No name stands for two types or two messages, and those of types are legal. -/
structure Lawful (k : Content) : Prop where
  types : k.registry.Lawful
  messages : (k.messages.map (·.name)).Nodup

end Content

section Steps

variable {α β : Type} {s : State} {c : Context}

theorem left_reported_bind {r : Report α} (hr : r.Tells) {f : α → Assembly β}
    {g : α → Option Content} (hf : ∀ a t, t.content = s.content → left ((f a).run t) = g a) :
    left ((reported r >>= f).run s) = (r.run []).1.toOption.bind g := by
  have hrun := reported_run r s
  rw [hr.steady s.warnings []] at hrun
  cases hresult : (r.run []).1 with
  | ok a =>
    rw [hresult] at hrun
    rw [bind_run_of_ok hrun]
    exact hf a _ rfl
  | error d =>
    rw [hresult] at hrun
    rw [bind_run_of_error hrun]
    rfl

theorem run_ofExcept {x : Except Diagnostic α} (w : List Diagnostic) :
    ((Report.ofExcept x).run w).1 = x := by
  cases x <;> rfl

theorem left_registerNamed (file : Text) (schema : Schema) :
    left ((registerNamed file schema).run s) =
      (s.registry.register schema file).toOption.map fun r => ⟨r, s.messages⟩ := by
  unfold registerNamed
  rw [get_bind_run]
  cases s.registry.register schema file <;> rfl

theorem left_register {r : Report Schema} (hr : r.Tells) :
    left ((reported r >>= registerNamed c.file).run s) =
      (r.run []).1.toOption.bind fun schema =>
        (s.registry.register schema c.file).toOption.map fun r => ⟨r, s.messages⟩ := by
  refine left_reported_bind hr fun schema t ht => ?_
  rw [left_registerNamed]
  injection ht with hregistry hmessages
  rw [hregistry, hmessages]

theorem left_addMessage (d : MessageDecl) :
    left ((addMessage c d).run s) = ((messageOf c d).run []).1.toOption.bind fun m =>
      if s.messages.any fun known => known.name == m.name then none
      else some ⟨s.registry, s.messages ++ [m]⟩ := by
  refine left_reported_bind (tells_messageOf c d) fun m t ht => ?_
  injection ht with hregistry hmessages
  rw [get_bind_run, hmessages, ← hregistry]
  by_cases hknown : (s.messages.any fun known => known.name == m.name) = true
  · rw [if_pos hknown, if_pos hknown, reported_run]
    rfl
  · rw [if_neg hknown, if_neg hknown]
    rfl

/-- A declaration that is no import adds what it denotes; the warnings before do not matter. -/
theorem left_addDeclaration (i : Option Imports) (inProtocol : Bool) {d : Declaration}
    (hd : d.import? = none) :
    left ((addDeclaration c i inProtocol d).run s) = s.content.add? c d := by
  cases d with
  | file d => cases hd
  | message d => exact left_addMessage d
  | record d =>
    refine (left_register (tells_recordOf c d)).trans ?_
    dsimp only [Content.add?, Declaration.type?]
    cases ((recordOf c d).run []).1.toOption <;> rfl
  | enum d =>
    refine (left_register (Report.tells_ofExcept (refuses_enumOf c d))).trans ?_
    rw [run_ofExcept]
    dsimp only [Content.add?, Declaration.type?]
    cases (enumOf c d).toOption <;> rfl
  | fixed d =>
    refine (left_register (Report.tells_ofExcept (refuses_fixedOf c d))).trans ?_
    rw [run_ofExcept]
    dsimp only [Content.add?, Declaration.type?]
    cases (fixedOf c d).toOption <;> rfl

theorem left_addDeclarations (i : Option Imports) (inProtocol : Bool) {ds : List Declaration}
    (hds : ∀ d ∈ ds, d.import? = none) :
    left ((addDeclarations c i inProtocol ds).run s) = ds.foldlM (Content.add? c) s.content := by
  induction ds generalizing s with
  | nil => rfl
  | cons d ds ih =>
    obtain ⟨hd, hds⟩ := List.forall_mem_cons.mp hds
    rw [addDeclarations, List.foldlM_cons, ← left_addDeclaration i inProtocol hd]
    rcases hrun : (addDeclaration c i inProtocol d).run s with ⟨result, t⟩
    cases result with
    | ok a =>
      rw [bind_run_of_ok hrun]
      exact ih hds
    | error e =>
      rw [bind_run_of_error hrun]
      rfl

end Steps

namespace Content

variable {c : Context} {k k' : Content} {d : Declaration} {ds : List Declaration}

theorem Lawful.of_grown (h : (k.grown c ds).Lawful) : k.Lawful where
  types := h.types.of_append
  messages := by
    have hnames := h.messages
    simp only [grown, List.map_append] at hnames
    exact hnames.of_append_left

theorem grown_cons : k.grown c (d :: ds) = (k.grown c [d]).grown c ds := by
  cases htype : d.type? c <;> cases hmessage : d.message? c <;>
    simp [grown, htype, hmessage]

theorem add?_eq_some_iff (hk : k.Lawful) :
    k.add? c d = some k' ↔ d.Denotes c ∧ (k.grown c [d]).Lawful ∧ k' = k.grown c [d] := by
  unfold add?
  cases htype : d.type? c with
  | some s =>
    have hgrown : k.grown c [d] =
        { k with
          registry :=
            { k.registry with
              entries := k.registry.entries ++ [⟨s, originOf k.registry.file c.file⟩] } } := by
      simp [grown, htype, Declaration.message?_of_type? htype]
    have hlawful : (k.grown c [d]).Lawful ↔
        s.isNamed = true ∧ Registry.isLegalName s.core.ownName.1 s.core.ownName.2 = true ∧
          s.full ∉ k.registry.names := by
      rw [hgrown, ← hk.types.append_iff (originOf k.registry.file c.file)]
      exact ⟨fun h => h.types, fun h => ⟨h, hk.messages⟩⟩
    have hdenotes : d.Denotes c := .inl (by simp [htype])
    dsimp only
    rw [hlawful, hgrown, Registry.toOption_register]
    simp only [hdenotes, true_and, Option.map_eq_some_iff]
    constructor
    · rintro ⟨registry, hregistry, rfl⟩
      obtain ⟨hallowed, rfl⟩ := Registry.insert_eq_ok_iff.mp (eq_ok_of_toOption hregistry)
      exact ⟨hallowed, rfl⟩
    · rintro ⟨hallowed, rfl⟩
      refine ⟨_, ?_, rfl⟩
      rw [Registry.insert_eq_ok_iff.mpr ⟨hallowed, rfl⟩]
      rfl
  | none =>
    cases hmessage : d.message? c with
    | none => simp [Declaration.Denotes, htype, hmessage]
    | some m =>
      have hgrown : k.grown c [d] = { k with messages := k.messages ++ [m] } := by
        simp [grown, htype, hmessage]
      have hlawful : (k.grown c [d]).Lawful ↔ ∀ known ∈ k.messages, known.name ≠ m.name := by
        rw [hgrown]
        constructor
        · intro h known hknown
          have hnames := h.messages
          rw [List.map_append, List.nodup_append] at hnames
          exact hnames.2.2 _ (List.mem_map_of_mem hknown) _ (by simp)
        · intro h
          refine ⟨hk.types, ?_⟩
          rw [List.map_append, List.nodup_append]
          refine ⟨hk.messages, by simp, ?_⟩
          simpa using h
      have hdenotes : d.Denotes c := .inr (by simp [hmessage])
      rw [hlawful, hgrown]
      simp only [hdenotes, true_and, Option.bind_some, List.any_eq_true, beq_iff_eq]
      constructor
      · intro h
        split at h
        · cases h
        · next hnew =>
          exact ⟨fun known hknown he => hnew ⟨known, hknown, he⟩, (Option.some.inj h).symm⟩
      · rintro ⟨hnew, rfl⟩
        rw [if_neg fun ⟨known, hknown, he⟩ => hnew known hknown he]

/-- Declarations can be added one after the other exactly if each of them denotes something and no
name is taken twice. -/
theorem foldlM_add?_eq_some_iff (hk : k.Lawful) :
    ds.foldlM (add? c) k = some k' ↔
      (∀ d ∈ ds, d.Denotes c) ∧ (k.grown c ds).Lawful ∧ k' = k.grown c ds := by
  induction ds generalizing k with
  | nil =>
    have hgrown : k.grown c [] = k := by simp [grown]
    simp [hgrown, hk, eq_comm]
  | cons d ds ih =>
    rw [List.foldlM_cons, List.forall_mem_cons, grown_cons]
    constructor
    · intro h
      obtain ⟨k₁, hstep, hrest⟩ := Option.bind_eq_some_iff.mp h
      obtain ⟨hd, hlawful, rfl⟩ := (add?_eq_some_iff hk).mp hstep
      obtain ⟨hds, hall, rfl⟩ := (ih hlawful).mp hrest
      exact ⟨⟨hd, hds⟩, hall, rfl⟩
    · rintro ⟨⟨hd, hds⟩, hall, rfl⟩
      refine Option.bind_eq_some_iff.mpr ⟨k.grown c [d], ?_, ?_⟩
      · exact (add?_eq_some_iff hk).mpr ⟨hd, hall.of_grown, rfl⟩
      · exact (ih hall.of_grown).mpr ⟨hds, hall, rfl⟩

end Content

end Build

end AvroIdl
