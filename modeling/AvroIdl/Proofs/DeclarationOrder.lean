import AvroIdl.Proofs.Denotation
import AvroIdl.Proofs.ImportWalk
import AvroIdl.Proofs.NameLookup
import AvroIdl.Proofs.Verdict

/-!
# The order of declarations

A unit without imports is built, resolved and checked with the same outcome in whatever order its
declarations stand: it is accepted in all orders or in none, and what is accepted has the same types
and messages, apart from the places to which references are bound.
-/
namespace AvroIdl

namespace SourceUnit

/-- The unit with other declarations. -/
def withDeclarations (u : SourceUnit) (ds : List Declaration) : SourceUnit :=
  match u.body with
  | .protocol d => { u with body := .protocol { d with body := ds } }
  | .schemas space main _ => { u with body := .schemas space main ds }

variable (u : SourceUnit) (ds ds' : List Declaration)

@[simp]
theorem declarations_withDeclarations : (u.withDeclarations ds).declarations = ds := by
  obtain ⟨body, orphans⟩ := u
  cases body <;> rfl

theorem withDeclarations_twice : (u.withDeclarations ds).withDeclarations ds' =
    u.withDeclarations ds' := by
  obtain ⟨body, orphans⟩ := u
  cases body <;> rfl

theorem withDeclarations_self : u.withDeclarations u.declarations = u := by
  obtain ⟨body, orphans⟩ := u
  cases body <;> rfl

end SourceUnit

namespace Registry

section Permuted

variable {r r' : Registry}

theorem names_perm (h : r.entries.Perm r'.entries) : r.names.Perm r'.names := h.map _

theorem Lawful.of_perm (hr : r.Lawful) (h : r.entries.Perm r'.entries) : r'.Lawful where
  named e he := hr.named e (h.mem_iff.mpr he)
  legal e he := hr.legal e (h.mem_iff.mpr he)
  distinct := (names_perm h).nodup_iff.mp hr.distinct

theorem find?_eq_some_iff (hr : r.Lawful) {full : Text} {s : Schema} :
    r.find? full = some s ↔ ∃ e ∈ r.entries, e.schema = s ∧ s.full = full := by
  refine ⟨exists_entry_of_find?, ?_⟩
  rintro ⟨e, he, rfl, rfl⟩
  exact hr.find?_of_mem he

/-- Names stand for the same types at whatever places these are registered. -/
theorem find?_eq_of_entries_perm (hr : r.Lawful) (h : r.entries.Perm r'.entries) (full : Text) :
    r.find? full = r'.find? full := by
  refine Option.ext fun s => ?_
  rw [find?_eq_some_iff hr, find?_eq_some_iff (hr.of_perm h)]
  exact exists_congr fun e => and_congr_left fun _ => h.mem_iff

end Permuted

section Completeness

/-- All names within the levels are registered, and all defaults fit by names. -/
structure Complete (r : Registry) (messages : List Message) (main : Option Schema) : Prop where
  known : ∀ s ∈ r.unitTypes messages main, ∀ ref ∈ s.allReferences, ref.full ∈ r.names
  defaults : ∀ f ∈ defaultFields (r.entries.map (·.schema)) messages, DefaultFits r.byName f

variable {r r' : Registry} {messages messages' : List Message} {main : Option Schema}

theorem exists_type_of_located {file : Text} {ref : Reference}
    (h : (file, ref) ∈ r.locatedReferences messages main) :
    ∃ s ∈ r.unitTypes messages main, ref ∈ s.allReferences := by
  simp only [locatedReferences, List.mem_append, List.mem_flatMap, List.mem_map, Option.mem_toList,
    Prod.mk.injEq] at h
  simp only [unitTypes, List.mem_append, List.mem_map, List.mem_flatMap, Option.mem_toList]
  rcases h with ⟨e, he, ref', href, -, rfl⟩ | ⟨ref', ⟨m, hm, href⟩ | ⟨s, hs, href⟩, -, rfl⟩
  · exact ⟨e.schema, .inl (.inl ⟨e, he, rfl⟩), href⟩
  · obtain ⟨s, hs, href⟩ := Message.mem_allReferences_iff.mp href
    exact ⟨s, .inl (.inr ⟨m, hm, hs⟩), href⟩
  · exact ⟨s, .inr hs, href⟩

theorem failure_resolveAll_eq_none_iff :
    (r.resolveAll messages main).failure = none ↔
      ∀ s ∈ r.unitTypes messages main, ∀ ref ∈ s.allReferences, ref.full ∈ r.names := by
  refine ⟨fun h s hs ref href => mem_names_of_resolved h hs href, fun h => ?_⟩
  refine unresolvedBundle_eq_none_iff.mpr (List.filter_eq_nil_iff.mpr ?_)
  rintro ⟨file, ref⟩ hlocated
  obtain ⟨s, hs, href⟩ := exists_type_of_located hlocated
  simpa [contains] using h s hs ref href

theorem mem_unitTypes_of_perm (h : r.entries.Perm r'.entries) (hm : messages.Perm messages')
    {s : Schema} : s ∈ r'.unitTypes messages' main ↔ s ∈ r.unitTypes messages main := by
  simp only [unitTypes, List.mem_append, List.mem_map, List.mem_flatMap, h.mem_iff, hm.mem_iff]

/-- The order of types and messages does not decide whether they are complete. -/
theorem Complete.of_perm (hr : r.Lawful) (h : r.entries.Perm r'.entries)
    (hm : messages.Perm messages') (hc : r.Complete messages main) :
    r'.Complete messages' main where
  known s hs ref href :=
    (names_perm h).mem_iff.mp (hc.known s ((mem_unitTypes_of_perm h hm).mp hs) ref href)
  defaults f hf := by
    have hlookup : r'.byName = r.byName :=
      funext fun ref => (find?_eq_of_entries_perm hr h ref.full).symm
    rw [hlookup]
    refine hc.defaults f ?_
    simpa only [defaultFields, List.mem_append, List.mem_flatMap, List.mem_map, h.mem_iff,
      hm.mem_iff] using hf

end Completeness

end Registry

namespace Build.Content

variable {c : Context} {k : Content} {ds ds' : List Declaration}

/-- The types and messages are the same up to their order. -/
structure Rearranged (k k' : Content) : Prop where
  entries : k.registry.entries.Perm k'.registry.entries
  messages : k.messages.Perm k'.messages

theorem Lawful.rearranged {k' : Content} (hk : k.Lawful) (h : k.Rearranged k') : k'.Lawful where
  types := hk.types.of_perm h.entries
  messages := (h.messages.map _).nodup_iff.mp hk.messages

theorem rearranged_grown (h : ds.Perm ds') : (k.grown c ds).Rearranged (k.grown c ds') where
  entries := .append_left _ ((h.filterMap _).map _)
  messages := .append_left _ (h.filterMap _)

/-- Nothing is bound. -/
structure Fresh (k : Content) : Prop where
  types : ∀ e ∈ k.registry.entries, e.schema.Fresh
  messages : ∀ m ∈ k.messages, m.Fresh

theorem lawful_empty (file : Text) : Lawful ⟨{ file := file }, []⟩ :=
  ⟨Registry.lawful_empty file, by simp⟩

theorem fresh_empty (file : Text) : Fresh ⟨{ file := file }, []⟩ := ⟨by simp, by simp⟩

theorem Fresh.grown (hk : k.Fresh) (c : Context) (ds : List Declaration) :
    (k.grown c ds).Fresh where
  types e he := by
    rcases List.mem_append.mp he with he | he
    · exact hk.types e he
    · obtain ⟨s, hs, rfl⟩ := List.mem_map.mp he
      obtain ⟨d, -, hd⟩ := List.mem_filterMap.mp hs
      exact Declaration.fresh_of_type? hd
  messages m hm := by
    rcases List.mem_append.mp hm with hm | hm
    · exact hk.messages m hm
    · obtain ⟨d, -, hd⟩ := List.mem_filterMap.mp hm
      exact Declaration.fresh_of_message? hd

theorem Fresh.free (hk : k.Fresh) : k.registry.Free :=
  fun e he => (hk.types e he).mono fun _ ht => ht.2

theorem Fresh.request (hk : k.Fresh) :
    ∀ m ∈ k.messages, ∀ f ∈ m.request, f.type.Everywhere Schema.Unbound := by
  intro m hm f hf
  have htype : f.type ∈ m.types := List.mem_append_left _ (List.mem_map_of_mem hf)
  exact ((hk.messages m hm).types _ htype).mono fun _ ht => ht.2

end Build.Content

/-- What a file says apart from its types, its messages and the bindings in its schema. -/
def IdlFile.heading (file : IdlFile) : IdlFile.Content :=
  match file.content with
  | .protocol p => .protocol { p with types := [], messages := [] }
  | .schema s => .schema s.unbound
  | .named => .named

namespace Build

open Compilation (Root)

variable {α : Type} {s s' t : State} {c : Context} {i : Option Imports} {inProtocol : Bool}

/-- A computation that only reports gives the same wherever it is started. -/
theorem reported_again {r : Report α} (hr : r.Tells) {a : α}
    (h : (reported r).run s = (.ok a, s')) (t : State) :
    ∃ t', (reported r).run t = (.ok a, t') ∧ s'.content = s.content ∧ t'.content = t.content := by
  rw [reported_run] at h
  obtain ⟨ha, rfl⟩ := Prod.mk.inj h
  refine ⟨{ t with warnings := (r.run t.warnings).2 }, ?_, rfl, rfl⟩
  rw [reported_run, hr.steady _ s.warnings, ha]

theorem left_eq_some {x : Except Diagnostic α × State} {k : Content} (h : left x = some k) :
    ∃ a s, x = (.ok a, s) ∧ s.content = k := by
  obtain ⟨result, s⟩ := x
  cases result with
  | ok a => exact ⟨a, s, rfl, Option.some.inj h⟩
  | error d => cases h

/-- Declarations that can be added in one order can be added in every other order. -/
theorem addDeclarations_rearranged {ds ds' : List Declaration}
    (hfree : ∀ d ∈ ds, d.import? = none) (hp : ds.Perm ds') (hk : s.content.Lawful)
    (h : (addDeclarations c i inProtocol ds).run s = (.ok ⟨⟩, s')) (ht : t.content = s.content) :
    ∃ t', (addDeclarations c i inProtocol ds').run t = (.ok ⟨⟩, t') ∧ s'.content.Lawful ∧
      s'.content = s.content.grown c ds ∧ t'.content = s.content.grown c ds' := by
  have hleft := left_addDeclarations (s := s) (c := c) i inProtocol hfree
  rw [h] at hleft
  obtain ⟨hdenote, hlawful, hcontent⟩ :=
    (Content.foldlM_add?_eq_some_iff hk).mp (show _ = some s'.content from hleft.symm)
  have hlawful' := hlawful.rearranged (Content.rearranged_grown hp)
  have hother : left ((addDeclarations c i inProtocol ds').run t) =
      some (s.content.grown c ds') := by
    rw [left_addDeclarations i inProtocol fun d hd => hfree d (hp.mem_iff.mpr hd), ht]
    exact (Content.foldlM_add?_eq_some_iff hk).mpr
      ⟨fun d hd => hdenote d (hp.mem_iff.mpr hd), hlawful', rfl⟩
  obtain ⟨_, t', hrun, hcontent'⟩ := left_eq_some hother
  exact ⟨t', hrun, hcontent ▸ hlawful, hcontent, hcontent'⟩

/-- Two files that say the same about the messages of their builds. -/
structure Counterparts (file file' : IdlFile) (messages messages' : List Message) : Prop where
  heading : file.heading = file'.heading
  main : Root.main? file = Root.main? file'
  messages : Root.messages file = messages ∧ Root.messages file' = messages' ∨
    Root.messages file = [] ∧ Root.messages file' = []

section Units

variable {file : Text} {idl : IdlFile} {ds' : List Declaration}

theorem addProtocol_rearranged {d : ProtocolDecl} (hfree : ∀ e ∈ d.body, e.import? = none)
    (hp : d.body.Perm ds') (hk : s.content.Lawful)
    (h : (addProtocol file i d).run s = (.ok idl, s')) (ht : t.content = s.content) :
    ∃ c idl' t', (addProtocol file i { d with body := ds' }).run t = (.ok idl', t') ∧
      s'.content.Lawful ∧ s'.content = s.content.grown c d.body ∧
      t'.content = s.content.grown c ds' ∧ Counterparts idl idl' s'.messages t'.messages := by
  obtain ⟨set, s₁, hset, h⟩ := bind_run_eq_ok h
  obtain ⟨q, s₂, hq, h⟩ := bind_run_eq_ok h
  obtain ⟨_, s₃, hadd, h⟩ := bind_run_eq_ok h
  obtain ⟨t₁, hset', hs₁, ht₁⟩ :=
    reported_again (Report.tells_ofExcept (refuses_collect file _ d.annotations)) hset t
  obtain ⟨t₂, hq', hs₂, ht₂⟩ :=
    reported_again (Report.tells_ofExcept (refuses_declaredName _ d.name set)) hq t₁
  have hstart : s₂.content = s.content := hs₂.trans hs₁
  have hstart' : t₂.content = s₂.content := (ht₂.trans ht₁).trans (ht.trans hstart.symm)
  obtain ⟨t₃, hadd', hlawful, hs₃, ht₃⟩ :=
    addDeclarations_rearranged hfree hp (hstart ▸ hk) hadd hstart'
  rw [hstart] at hs₃ ht₃
  cases h
  let built : Protocol :=
    { name := q.name, space := q.space, doc := d.doc, properties := set.properties
      types := t₃.registry.names, messages := t₃.messages }
  refine ⟨_, ⟨.protocol built, t₃.registry.names⟩, t₃, ?_, hlawful, hs₃, ht₃, rfl, rfl,
    .inl ⟨rfl, rfl⟩⟩
  exact (bind_run_of_ok hset').trans ((bind_run_of_ok hq').trans (bind_run_of_ok hadd'))

theorem addSchemas_rearranged {space : Option Identifier} {main : Option TypeNode}
    {ds : List Declaration} (hfree : ∀ e ∈ ds, e.import? = none) (hp : ds.Perm ds')
    (hk : s.content.Lawful) (h : (addSchemas file i space main ds).run s = (.ok idl, s'))
    (ht : t.content = s.content) :
    ∃ c idl' t', (addSchemas file i space main ds').run t = (.ok idl', t') ∧
      s'.content.Lawful ∧ s'.content = s.content.grown c ds ∧
      t'.content = s.content.grown c ds' ∧ Counterparts idl idl' s'.messages t'.messages := by
  obtain ⟨scope, s₁, hscope, h⟩ := bind_run_eq_ok h
  obtain ⟨_, s₂, hadd, h⟩ := bind_run_eq_ok h
  obtain ⟨t₁, hscope', hs₁, ht₁⟩ := reported_again (Project.tells_scopeOf _ space) hscope t
  obtain ⟨t₂, hadd', hlawful, hs₂, ht₂⟩ :=
    addDeclarations_rearranged hfree hp (hs₁ ▸ hk) hadd (ht₁.trans (ht.trans hs₁.symm))
  rw [hs₁] at hs₂ ht₂
  cases main with
  | none =>
    cases h
    refine ⟨_, ⟨.named, t₂.registry.names⟩, t₂, ?_, hlawful, hs₂, ht₂, rfl, rfl, .inr ⟨rfl, rfl⟩⟩
    exact (bind_run_of_ok hscope').trans (bind_run_of_ok hadd')
  | some type =>
    obtain ⟨schema, s₃, htype, h⟩ := bind_run_eq_ok h
    cases h
    -- the main schema is built from the same type whatever has been declared
    obtain ⟨t₃, htype', hs₃, ht₃⟩ := reported_again (tells_typeOf _ type) htype t₂
    refine ⟨_, ⟨.schema schema, t₃.registry.names⟩, t₃, ?_, hs₃ ▸ hlawful, hs₃.trans hs₂,
      ht₃.trans ht₂, rfl, rfl, .inr ⟨rfl, rfl⟩⟩
    refine (bind_run_of_ok hscope').trans ((bind_run_of_ok hadd').trans ?_)
    exact bind_run_of_ok htype'

/-- A unit that can be built in one order can be built in every other order. -/
theorem addUnit_rearranged {u : SourceUnit} (hfree : ∀ d ∈ u.declarations, d.import? = none)
    (hp : u.declarations.Perm ds') (hk : s.content.Lawful)
    (h : (addUnit file i u).run s = (.ok idl, s')) :
    ∃ c idl' t', (addUnit file i (u.withDeclarations ds')).run s = (.ok idl', t') ∧
      s'.content.Lawful ∧ s'.content = s.content.grown c u.declarations ∧
      t'.content = s.content.grown c ds' ∧ Counterparts idl idl' s'.messages t'.messages := by
  obtain ⟨_, s₁, hwarn, h⟩ := bind_run_eq_ok h
  obtain ⟨t₁, hwarn', hs₁, ht₁⟩ :=
    reported_again (Project.tells_warnOrphans _ u.orphans) hwarn s
  rw [← hs₁] at hk ht₁ ⊢
  obtain ⟨body, orphans⟩ := u
  cases body with
  | protocol d =>
    obtain ⟨c, idl', t', hrun, hrest⟩ := addProtocol_rearranged hfree hp hk h ht₁
    exact ⟨c, idl', t', (bind_run_of_ok hwarn').trans hrun, hrest⟩
  | schemas space main ds =>
    obtain ⟨c, idl', t', hrun, hrest⟩ := addSchemas_rearranged hfree hp hk h ht₁
    exact ⟨c, idl', t', (bind_run_of_ok hwarn').trans hrun, hrest⟩

end Units

end Build

namespace Compilation

open Build

/-- Builds a unit in a file, resolves it and checks it. -/
def ofUnit (file : Text) (imports : Option Imports) (session : Session) (u : SourceUnit) :
    Compilation Root :=
  match (addUnit file imports u).run { registry := { file := file }, session := session } with
  | (.error d, s) => ⟨s.warnings, .error [d]⟩
  | (.ok idl, s) => ⟨s.warnings, finish s.registry idl⟩

/-- A compilation is that of the unit of its source. -/
theorem root_eq_ofUnit (x : Project) {u : SourceUnit} (h : treeOf x.source x.path.text = .ok u) :
    root x.tree x.searchDirectories x.source x.path =
      ofUnit x.path.text (some ⟨x.tree, x.path, loader x.tree Session.maxDepth⟩) x.session u := by
  rw [Project.root_eq, State.opening]
  unfold buildSource ofUnit
  simp only [h]
  rcases (addUnit x.path.text _ u).run { registry := { file := x.path.text }, session := x.session }
    with ⟨result, s⟩
  cases result <;> rfl

/-- A unit with the same types under the same names, the same messages and the same heading, apart
from the order of types and messages and from bindings. -/
structure Root.SameContent (r r' : Root) : Prop where
  names : r.registry.names.Perm r'.registry.names
  types : ∀ full, (r.registry.find? full).map Schema.unbound =
    (r'.registry.find? full).map Schema.unbound
  origins : (r.registry.entries.map Registry.Entry.unbound).Perm
    (r'.registry.entries.map Registry.Entry.unbound)
  messages : ((Root.messages r.file).map Message.unbound).Perm
    ((Root.messages r'.file).map Message.unbound)
  heading : r.file.heading = r'.file.heading

theorem finish_eq_ok_iff {registry : Registry} {file : IdlFile} {unit : Root}
    (hr : registry.Free)
    (hm : ∀ m ∈ Root.messages file, ∀ f ∈ m.request, f.type.Everywhere Schema.Unbound) :
    finish registry file = .ok unit ↔
      registry.Complete (Root.messages file) (Root.main? file) ∧
        let r := registry.resolveAll (Root.messages file) (Root.main? file)
        unit = ⟨r.registry, Root.resolved file r.messages r.main r.registry.names⟩ := by
  constructor
  · intro h
    obtain ⟨hfailure, hdefaults, hunit⟩ := finish_eq_ok h
    exact ⟨⟨Registry.failure_resolveAll_eq_none_iff.mp hfailure,
      (Registry.validateDefaults_resolveAll_iff hr hm).mp hdefaults⟩, hunit⟩
  · rintro ⟨⟨hknown, hdefaults⟩, rfl⟩
    unfold finish
    dsimp only
    rw [Registry.failure_resolveAll_eq_none_iff.mpr hknown,
      (Registry.validateDefaults_resolveAll_iff hr hm).mpr hdefaults]

theorem heading_resolved (registry : Registry) (file : IdlFile) (names : List Text) :
    let r := registry.resolveAll (Root.messages file) (Root.main? file)
    (Root.resolved file r.messages r.main names).heading = file.heading := by
  obtain ⟨content, _⟩ := file
  cases content <;> simp [IdlFile.heading, Root.resolved, Root.main?, Registry.resolveAll]

/-- What is complete in one order is so in every other order, with the same content. -/
theorem finish_rearranged {k k' : Content} (hk : k.Lawful) (hfresh : k.Fresh)
    (hfresh' : k'.Fresh) (h : k.Rearranged k') {file file' : IdlFile}
    (hfile : Counterparts file file' k.messages k'.messages) {unit : Root}
    (hfinish : finish k.registry file = .ok unit) :
    ∃ unit', finish k'.registry file' = .ok unit' ∧ unit.SameContent unit' := by
  have hmessages : (Root.messages file).Perm (Root.messages file') := by
    rcases hfile.messages with ⟨hs, hs'⟩ | ⟨hs, hs'⟩
    · rw [hs, hs']
      exact h.messages
    · rw [hs, hs']
  have hrequest : ∀ m ∈ Root.messages file, ∀ f ∈ m.request, f.type.Everywhere Schema.Unbound := by
    rcases hfile.messages with ⟨hs, -⟩ | ⟨hs, -⟩
    · rw [hs]
      exact hfresh.request
    · simp [hs]
  obtain ⟨hcomplete, rfl⟩ := (finish_eq_ok_iff hfresh.free hrequest).mp hfinish
  have hcomplete' := hcomplete.of_perm hk.types h.entries hmessages
  rw [hfile.main] at hcomplete'
  refine ⟨_, (finish_eq_ok_iff hfresh'.free fun m hm => hrequest m (hmessages.mem_iff.mpr hm)).mpr
    ⟨hcomplete', rfl⟩, ?_⟩
  refine ⟨?_, fun full => ?_, ?_, ?_, ?_⟩
  · rw [Registry.names_resolveAll, Registry.names_resolveAll]
    exact Registry.names_perm h.entries
  · rw [Registry.find?_resolveAll, Registry.find?_resolveAll,
      Registry.find?_eq_of_entries_perm hk.types h.entries]
    simp [Option.map_map, Function.comp_def]
  · rw [Registry.unbound_entries_resolveAll, Registry.unbound_entries_resolveAll]
    exact h.entries.map _
  · rw [(Root.content_resolved k.registry file _).1, (Root.content_resolved k'.registry file' _).1,
      Registry.unbound_messages_resolveAll, Registry.unbound_messages_resolveAll]
    exact hmessages.map _
  · rw [heading_resolved, heading_resolved]
    exact hfile.heading

section Units

variable {file : Text} {imports : Option Imports} {session : Session} {u : SourceUnit}
  {ds : List Declaration}

/-- A unit that is accepted in one order is accepted in every other order with the same content. -/
theorem ofUnit_rearranged (hfree : ∀ d ∈ u.declarations, d.import? = none)
    (hp : u.declarations.Perm ds) {unit : Root}
    (h : (ofUnit file imports session u).result = .ok unit) :
    ∃ unit', (ofUnit file imports session (u.withDeclarations ds)).result = .ok unit' ∧
      unit.SameContent unit' := by
  unfold ofUnit at h ⊢
  split at h
  · cases h
  · next idl s' hrun =>
    have hstart : (State.content { registry := { file := file }, session := session }).Lawful :=
      Content.lawful_empty file
    obtain ⟨c, idl', t', hrun', hk, hs', ht', hfile⟩ := addUnit_rearranged hfree hp hstart hrun
    have hsame : s'.content.Rearranged t'.content := by
      rw [hs', ht']
      exact Content.rearranged_grown hp
    have hempty := Content.fresh_empty file
    obtain ⟨unit', hunit', hcontent⟩ := finish_rearranged hk (hs' ▸ hempty.grown c u.declarations)
      (ht' ▸ hempty.grown c ds) hsame hfile h
    refine ⟨unit', ?_, hcontent⟩
    rw [hrun']
    exact hunit'

/-- A unit is accepted in all orders or in none, and always has the same content. -/
theorem ofUnit_of_perm (hfree : ∀ d ∈ u.declarations, d.import? = none)
    (hp : u.declarations.Perm ds) :
    (ofUnit file imports session (u.withDeclarations ds)).succeeds =
        (ofUnit file imports session u).succeeds ∧
      ∀ unit unit', (ofUnit file imports session u).result = .ok unit →
        (ofUnit file imports session (u.withDeclarations ds)).result = .ok unit' →
          unit.SameContent unit' := by
  have hback : ∀ unit, (ofUnit file imports session (u.withDeclarations ds)).result = .ok unit →
      ∃ unit', (ofUnit file imports session u).result = .ok unit' := by
    intro unit h
    have hfree' : ∀ d ∈ (u.withDeclarations ds).declarations, d.import? = none := by
      rw [SourceUnit.declarations_withDeclarations]
      exact fun d hd => hfree d (hp.mem_iff.mpr hd)
    have hp' : (u.withDeclarations ds).declarations.Perm u.declarations := by
      rw [SourceUnit.declarations_withDeclarations]
      exact hp.symm
    obtain ⟨unit', hunit', -⟩ := ofUnit_rearranged hfree' hp' h
    rw [SourceUnit.withDeclarations_twice, SourceUnit.withDeclarations_self] at hunit'
    exact ⟨unit', hunit'⟩
  constructor
  · unfold succeeds
    cases hu : (ofUnit file imports session u).result with
    | ok unit =>
      obtain ⟨unit', hunit', -⟩ := ofUnit_rearranged hfree hp hu
      rw [hunit']
      rfl
    | error e =>
      cases hv : (ofUnit file imports session (u.withDeclarations ds)).result with
      | error e' => rfl
      | ok unit =>
        obtain ⟨unit', hunit'⟩ := hback unit hv
        rw [hu] at hunit'
        cases hunit'
  · intro unit unit' h h'
    obtain ⟨unit'', h'', hsame⟩ := ofUnit_rearranged hfree hp h
    cases h'.symm.trans h''
    exact hsame

/-- The order of the declarations of a unit without imports decides neither whether the unit is
accepted nor what it contains. So the compilation of a source has the outcome of its unit in any
other order. -/
theorem sameContent_of_perm (hfree : ∀ d ∈ u.declarations, d.import? = none)
    (hp : u.declarations.Perm ds) :
    (ofUnit file imports session (u.withDeclarations ds)).succeeds =
        (ofUnit file imports session u).succeeds ∧
      (∀ unit unit', (ofUnit file imports session u).result = .ok unit →
        (ofUnit file imports session (u.withDeclarations ds)).result = .ok unit' →
          unit.SameContent unit') ∧
      ∀ x : Project, treeOf x.source x.path.text = .ok u →
        let compiled := root x.tree x.searchDirectories x.source x.path
        let reordered := ofUnit x.path.text
          (some ⟨x.tree, x.path, loader x.tree Session.maxDepth⟩) x.session (u.withDeclarations ds)
        reordered.succeeds = compiled.succeeds ∧
          ∀ unit unit', compiled.result = .ok unit → reordered.result = .ok unit' →
            unit.SameContent unit' := by
  refine ⟨(ofUnit_of_perm hfree hp).1, (ofUnit_of_perm hfree hp).2, fun x hx => ?_⟩
  rw [root_eq_ofUnit x hx]
  exact ofUnit_of_perm hfree hp

end Units

/-- Types are used before they are declared, also by defaults. -/
def walkSource : Text :=
  "protocol P \x7b record Path \x7b Step first = \x7b\"to\": \"N\"\x7d; \x7d " ++
    "record Step \x7b Side to; \x7d enum Side \x7b N, S \x7d Path walk(Side by = \"S\"); \x7d"

theorem walkSource_sameContent :
    ∃ u, treeOf walkSource "walk.avdl" = .ok u ∧ (∀ d ∈ u.declarations, d.import? = none) ∧
      ∃ unit unit', (ofUnit "walk.avdl" none {} u).result = .ok unit ∧
        (ofUnit "walk.avdl" none {} (u.withDeclarations u.declarations.reverse)).result =
          .ok unit' ∧
        unit.registry.names = [("Path" : Text), "Step", "Side"] ∧
        unit'.registry.names = [("Side" : Text), "Step", "Path"] ∧ unit.SameContent unit' := by
  have hrun : (treeOf walkSource "walk.avdl").toOption.any (fun u =>
      (u.declarations.all fun d => d.import?.isNone) &&
        (ofUnit "walk.avdl" none {} u).result.toOption.any
          (fun unit => unit.registry.names == [("Path" : Text), "Step", "Side"]) &&
        (ofUnit "walk.avdl" none {} (u.withDeclarations u.declarations.reverse)).result.toOption.any
          (fun unit => unit.registry.names == [("Side" : Text), "Step", "Path"])) = true := by
    decide +kernel
  obtain ⟨u, hu, hcheck⟩ := exists_ok_of_any hrun
  rw [Bool.and_eq_true, Bool.and_eq_true, List.all_eq_true] at hcheck
  obtain ⟨⟨hfree, hforward⟩, hback⟩ := hcheck
  have hfree : ∀ d ∈ u.declarations, d.import? = none := fun d hd => by simpa using hfree d hd
  obtain ⟨unit, hunit, hnames⟩ := exists_ok_of_any hforward
  obtain ⟨unit', hunit', hnames'⟩ := exists_ok_of_any hback
  refine ⟨u, hu, hfree, unit, unit', hunit, hunit', beq_iff_eq.mp hnames, beq_iff_eq.mp hnames', ?_⟩
  exact (sameContent_of_perm hfree (List.reverse_perm _).symm).2.1 unit unit' hunit hunit'

end Compilation

end AvroIdl
