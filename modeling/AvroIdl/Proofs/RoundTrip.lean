import AvroIdl.Proofs.ReadBack

/-!
# Documents are read back

A protocol, or a list of all registered types, is written and read again: the types come back, every
one once, and the messages in their order. This is told for any number of levels with which the
document is read.
-/
namespace AvroIdl

namespace Document

section Unit

variable {r : Registry} {bare : Bool}

/-- The types of the registry, which are registered one by one, can be read back. -/
structure Ready (r : Registry) (bare : Bool) : Prop where
  lawful : r.Lawful
  entries : ∀ e ∈ r.entries, e.schema.Everywhere (Writable r bare)

theorem writes_schema (hr : Ready r bare) {s : Schema} (hs : s.Everywhere (Writable r bare))
    (hi : s.Inner) {enclosing : Option Text} (he : InForce bare enclosing) (w : List Text) :
    Writes r (writeSchema r s enclosing) enclosing w s.asRead :=
  writes_inner (follows_writeReference hr.lawful hr.entries r.size) hs hi he w

theorem branchKey_placed (s : Schema) : (placed s).branchKey = s.full := by
  simp [placed, Schema.branchKey, Reference.full, fullName, Schema.full]

theorem writeTypes_of_new {name : Text} {s : Schema} {w : List Text} (hs : r.find? name = some s)
    (hnew : name ∉ w) (enclosing : Option Text) (names : List Text) :
    (writeTypes r enclosing (name :: names)).run w = (do
      let type ← writeSchema r s enclosing
      return type :: (← writeTypes r enclosing names) : Writer (List Json)).run w := by
  have hcontains : w.contains name = false := by simpa using hnew
  simp only [writeTypes, hs]
  rw [StateT.run_bind, StateT.run_get, pure_bind]
  simp only [hcontains, Bool.false_eq_true, if_false]

theorem writeTypes_of_known {name : Text} {w : List Text}
    (hknown : ∀ s, r.find? name = some s → name ∈ w) (enclosing : Option Text)
    (names : List Text) :
    (writeTypes r enclosing (name :: names)).run w = (writeTypes r enclosing names).run w := by
  cases hs : r.find? name with
  | none =>
    simp only [writeTypes, hs]
    rfl
  | some s =>
    have hcontains : w.contains name = true := by simpa using hknown s hs
    simp only [writeTypes, hs]
    rw [StateT.run_bind, StateT.run_get, pure_bind]
    simp only [hcontains, if_true]

/-- The types of a list are defined unless they have been before, and after that they are all
there. -/
theorem writeTypes_grows (hr : Ready r bare) {enclosing : Option Text} (he : InForce bare enclosing)
    (names w : List Text) :
    ∃ cs, Grows r w ((writeTypes r enclosing names).run w).2 (cs.flatMap (·.types)) ∧
      List.Forall₂ (SettlesAt (normalizeNamespace enclosing))
        ((writeTypes r enclosing names).run w).1 cs ∧
      (∀ c ∈ cs, c.schema.isUnion = false) ∧
      Unseen (fun c : Converted => c.schema.branchKey) w cs ∧
      ∀ name ∈ names, name ∈ r.names → name ∈ ((writeTypes r enclosing names).run w).2 := by
  induction names generalizing w with
  | nil => exact ⟨[], grows_refl r w, .nil, by simp, unseen_nil, by simp⟩
  | cons name names ih =>
    by_cases hknown : ∀ s, r.find? name = some s → name ∈ w
    · rw [writeTypes_of_known hknown]
      obtain ⟨cs, hgrows, hreads, hunion, hunseen, hall⟩ := ih w
      refine ⟨cs, hgrows, hreads, hunion, hunseen, ?_⟩
      intro n hn hin
      rcases List.mem_cons.mp hn with rfl | hn
      · obtain ⟨e, hmem, rfl⟩ := List.mem_map.mp hin
        exact hgrows.subset (hknown _ (hr.lawful.find?_of_mem hmem))
      · exact hall n hn hin
    · obtain ⟨s, hs, hnew⟩ : ∃ s, r.find? name = some s ∧ name ∉ w := by
        simpa only [not_forall, exists_prop] using hknown
      obtain ⟨e, hmem, rfl, rfl⟩ := Registry.exists_entry_of_find? hs
      obtain ⟨types, hgrows, hread⟩ :=
        defines_named (follows_writeReference hr.lawful hr.entries r.size)
          (hr.entries e hmem) (hr.lawful.named e hmem) he hnew
      obtain ⟨cs, hgrows', hreads, hunion, hunseen, hall⟩ :=
        ih ((writeSchema r e.schema enclosing).run w).2
      have hdefined := hgrows.define hnew hs (List.mem_map_of_mem hmem)
      rw [writeTypes_of_new hs hnew]
      refine ⟨⟨placed e.schema, e.schema.asRead :: types⟩ :: cs, hdefined.trans hgrows',
        .cons hread hreads, ?_, ?_, ?_⟩
      · exact List.forall_mem_cons.mpr ⟨rfl, hunion⟩
      · refine Unseen.cons ?_ ?_
        · rw [branchKey_placed]
          exact hnew
        · rw [branchKey_placed]
          exact ⟨hunseen.1, fun c hc hin => hunseen.2 c hc (hgrows.subset hin)⟩
      · intro n hn hin
        rcases List.mem_cons.mp hn with rfl | hn
        · exact hgrows'.subset (hgrows.subset List.mem_cons_self)
        · exact hall n hn hin

/-- If nothing had been written and all names have been, every type was defined once. -/
theorem types_perm_of_grows (hr : r.Lawful) {w : List Text} {types : List Schema}
    (h : Grows r [] w types) (hall : ∀ name ∈ r.names, name ∈ w) :
    types.Perm (r.entries.map fun e => e.schema.asRead) := by
  obtain ⟨new, rfl, hnodup, hnew, rfl⟩ := h
  have hperm : new.Perm r.names := by
    refine (List.perm_ext_iff_of_nodup hnodup hr.distinct).mpr fun name => ?_
    constructor
    · exact fun hin => (hnew name hin).2
    · exact fun hin => by simpa using hall name hin
  have hnames : typesOf r r.names = r.entries.map fun e => e.schema.asRead := by
    have hfind : ∀ e ∈ r.entries, ((r.find? e.schema.full).map Schema.asRead) =
        some e.schema.asRead := fun e he => by rw [hr.find?_of_mem he]; rfl
    rw [typesOf, Registry.names, List.filterMap_map]
    rw [List.filterMap_congr (g := fun e => some e.schema.asRead) hfind]
    simp
  rw [← hnames]
  exact hperm.filterMap _

/-- What is written for a message once its types have been. -/
def messageMembers (m : Message) (request : List Json) (response : Json) (errors : List Json) :
    Members :=
  let start := (docMember m.doc).merge m.properties
  let members := (start.put "request" (.array request)).put "response" response
  let members := if errors.isEmpty then members else members.put "errors" (.array errors)
  if m.isOneWay then members.put "one-way" (.bool true) else members

section Message

variable {m : Message} {enclosing : Option Text} {ms : Members} {cs : List Converted}

theorem get?_messageMembers (hc : m.Clear) (request errors : List Json) (response : Json) :
    (messageMembers m request response errors).get? "doc" = m.doc.map .string ∧
      (messageMembers m request response errors).get? "request" = some (.array request) ∧
      (messageMembers m request response errors).get? "response" = some response ∧
      (messageMembers m request response errors).get? "errors" =
        (if errors.isEmpty then none else some (.array errors)) ∧
      (messageMembers m request response errors).get? "one-way" =
        if m.isOneWay then some (.bool true) else none := by
  have hdoc := hc.properties.get? (by decide : ("doc" : Text) ∈ messageGaps)
  have herrors := hc.properties.get? (by decide : ("errors" : Text) ∈ messageGaps)
  have honeWay := hc.properties.get? (by decide : ("one-way" : Text) ∈ messageGaps)
  unfold messageMembers
  refine ⟨?_, ?_, ?_, ?_, ?_⟩ <;> cases m.isOneWay <;> cases errors.isEmpty <;>
    simp +decide [Members.get?_put, Members.get?_merge, docMember, hdoc, herrors, honeWay]

theorem without_messageMembers (hd : m.properties.Distinct) (request errors : List Json)
    (response : Json) : (messageMembers m request response errors).without messageKeys =
      m.properties.without messageKeys := by
  have hput : ∀ (ms : Members) (key : Text) (value : Json), key ∈ messageKeys →
      (ms.put key value).without messageKeys = ms.without messageKeys :=
    fun _ _ value h => Members.without_put h value
  have hstart : ((docMember m.doc).merge m.properties).without messageKeys =
      m.properties.without messageKeys :=
    Members.without_merge hd (within_optionalMember _ (by decide))
  unfold messageMembers
  cases m.isOneWay <;> cases errors.isEmpty <;>
    simp only [Bool.false_eq_true, if_true, if_false, hput _ "one-way" _ (by decide),
      hput _ "errors" _ (by decide), hput _ "response" _ (by decide),
      hput _ "request" _ (by decide), hstart]

/-- The errors are read as they were written; none and an empty list are written alike. -/
theorem settles_readErrors {js : List Json}
    (hget : ms.get? "errors" = if js.isEmpty then none else some (.array js))
    (hread : List.Forall₂ (SettlesAt enclosing) js cs)
    (hcs : cs.map (·.schema) = (m.errors.getD []).map Schema.asRead) (owner : Text) :
    Settles (fun levels => readErrors levels enclosing owner ms)
      (m.asRead.errors, cs.flatMap (·.types)) := by
  cases hread with
  | nil =>
    have herrors : m.asRead.errors = none := by
      have hempty : m.errors.getD [] = [] := by simpa using hcs.symm
      cases he : m.errors with
      | none => simp [Message.asRead, he]
      | some es =>
        rw [he, Option.getD_some] at hempty
        simp [Message.asRead, he, hempty]
    simp only [readErrors, hget, List.isEmpty_nil, if_true, herrors]
    exact settles_ok _
  | @cons j c js cs hj hjs =>
    have herrors : m.asRead.errors = some ((c :: cs).map (·.schema)) := by
      cases he : m.errors with
      | none => simp [he] at hcs
      | some es =>
        rw [he, Option.getD_some] at hcs
        cases es with
        | nil => simp at hcs
        | cons e es => simp [Message.asRead, he, hcs]
    simp only [readErrors, hget, List.isEmpty_cons, Bool.false_eq_true, if_false, herrors]
    exact (settles_readTypes (.cons hj hjs)).pred.bind (settles_ok _)

theorem readOneWay_of_get? {isOneWay : Bool}
    (hget : ms.get? "one-way" = if isOneWay then some (.bool true) else none) (owner : Text) :
    readOneWay owner ms = .ok isOneWay := by
  unfold readOneWay
  rw [hget]
  cases isOneWay <;> rfl

theorem settles_readMessage {request errors : List Json} {response : Json}
    {ps : List (Field × List Schema)} {types : List Schema} (hp : m.Proper) (hc : m.Clear)
    (hrequest : List.Forall₂ (SettlesField enclosing) request ps)
    (hps : List.Forall₂ (fun f p => p.1 = f.asRead) m.request ps)
    (hresponse : SettlesAt enclosing response ⟨m.response.asRead, types⟩)
    (herrors : List.Forall₂ (SettlesAt enclosing) errors cs)
    (hcs : List.Forall₂ (fun s c => c.schema = s.asRead) (m.errors.getD []) cs) :
    Settles (fun levels =>
        readMessage levels enclosing m.name (messageMembers m request response errors))
      (m.asRead, ps.flatMap (·.2) ++ types ++ cs.flatMap (·.types)) := by
  obtain ⟨hdoc, hreq, hres, herr, hone⟩ := get?_messageMembers hc request errors response
  have hfields := (settles_readFields hrequest (nodup_names_of_forall₂ hps hp.names)).pred.pred
  have hraised := settles_readErrors herr herrors (map_eq_of_forall₂ hcs)
    ("message '" ++ m.name ++ "'")
  rw [map_fst_eq_of_forall₂ hps] at hfields
  simp only [readMessage, optionalString_of_get? hdoc, readRequest, hreq, readResponse, hres,
    readOneWay_of_get? hone, without_messageMembers hp.distinct]
  refine Settles.bind (settles_ok ()) ?_
  refine Settles.bind hfields ?_
  refine Settles.bind hresponse.pred ?_
  refine Settles.bind hraised ?_
  exact settles_ok _

end Message

theorem writeAll_eq_mapM (enclosing : Option Text) (ss : List Schema) :
    writeAll r enclosing ss = ss.mapM fun s => writeSchema r s enclosing := by
  induction ss with
  | nil => simp [writeAll]
  | cons s ss ih => simp [writeAll, ih]

theorem writeParameters_eq_mapM (enclosing : Option Text) (fields : List Field) :
    writeParameters r enclosing fields =
      fields.mapM (writeField fun s => writeSchema r s enclosing) := by
  induction fields with
  | nil => simp [writeParameters]
  | cons f fields ih => simp [writeParameters, writeField, ih]

structure Sendable (r : Registry) (bare : Bool) (m : Message) : Prop where
  proper : m.Proper
  clear : m.Clear
  types : ∀ s ∈ m.types, s.Everywhere (Writable r bare)

theorem writeMessage_grows (hr : Ready r bare) {m : Message} (hm : Sendable r bare m)
    {enclosing : Option Text} (he : InForce bare enclosing) (w : List Text) :
    ∃ ms types, Grows r w ((writeMessage r enclosing m).run w).2 types ∧
      ((writeMessage r enclosing m).run w).1 = .object ms ∧
      Settles (fun levels => readMessage levels (normalizeNamespace enclosing) m.name ms)
        (m.asRead, types) := by
  have htype : ∀ s ∈ m.types, ∀ w,
      Writes r (writeSchema r s enclosing) enclosing w s.asRead := fun s hs w =>
    writes_schema hr (hm.types s hs) (hm.proper.types s hs).2 he w
  have hparameter : ∀ f ∈ m.request, ∀ w, ∃ p : Field × List Schema,
      Grows r w ((writeField (fun s => writeSchema r s enclosing) f).run w).2 p.2 ∧
        SettlesField (normalizeNamespace enclosing)
          ((writeField (fun s => writeSchema r s enclosing) f).run w).1 p ∧
        p.1 = f.asRead := fun f hf w =>
    writeField_grows (hm.proper.parameters f hf) (hm.clear.parameters f hf)
      (htype f.type (List.mem_append_left _ (List.mem_map_of_mem hf)) w)
  have herror : ∀ s ∈ m.errors.getD [], ∀ w, ∃ c : Converted,
      Grows r w ((writeSchema r s enclosing).run w).2 c.types ∧
        SettlesAt (normalizeNamespace enclosing) ((writeSchema r s enclosing).run w).1 c ∧
        c.schema = s.asRead := by
    intro s hs w
    obtain ⟨types, hgrows, hread⟩ :=
      htype s (List.mem_append_right _ (List.mem_cons_of_mem _ hs)) w
    exact ⟨⟨s.asRead, types⟩, hgrows, hread, rfl⟩
  obtain ⟨ps, hgrows, hreads, hviews⟩ := mapM_grows hparameter w
  obtain ⟨types, hgrows', hresponse⟩ :=
    htype m.response (List.mem_append_right _ List.mem_cons_self)
      ((m.request.mapM (writeField fun s => writeSchema r s enclosing)).run w).2
  obtain ⟨cs, hgrows'', herrors, hcs⟩ := mapM_grows herror _
  refine ⟨_, _, ?_, ?_, settles_readMessage hm.proper hm.clear hreads hviews hresponse herrors hcs⟩
  · rw [writeMessage, writeParameters_eq_mapM, writeAll_eq_mapM]
    exact (hgrows.trans hgrows').trans hgrows''
  · rw [writeMessage, writeParameters_eq_mapM, writeAll_eq_mapM]
    rfl

/-- A message with a new name comes after those before it, and the names of the rest stay new. -/
theorem unseen_put {done : Members} {m : Message} {messages : List Message}
    (h : Unseen Message.name done.keys (m :: messages)) (j : Json) :
    done.put m.name j = done ++ [(m.name, j)] ∧
      Unseen Message.name (done.put m.name j).keys messages := by
  obtain ⟨hnew, hunseen⟩ := h.of_cons
  have hdone := Members.put_of_notMem hnew j
  refine ⟨hdone, hunseen.1, fun m' hm' hin => hunseen.2 m' hm' ?_⟩
  rw [hdone, Members.keys_append] at hin
  exact (List.mem_append.mp hin).elim (List.mem_cons_of_mem _)
    fun hin => List.mem_cons.mpr (.inl (List.mem_singleton.mp hin))

/-- Messages of different names are written after those before them, each as its own member. -/
theorem writeMessages_grows (hr : Ready r bare) {messages : List Message}
    (hm : ∀ m ∈ messages, Sendable r bare m) {enclosing : Option Text}
    (he : InForce bare enclosing) {done : Members}
    (hnames : Unseen Message.name done.keys messages) (w : List Text) :
    ∃ ms types, Grows r w ((writeMessages r enclosing done messages).run w).2 types ∧
      ((writeMessages r enclosing done messages).run w).1 = done ++ ms ∧
      Settles (fun levels => readMessages levels (normalizeNamespace enclosing) ms)
        (messages.map Message.asRead, types) := by
  induction messages generalizing done w with
  | nil => exact ⟨[], [], grows_refl r w, (List.append_nil done).symm, settles_ok _⟩
  | cons m messages ih =>
    obtain ⟨hfirst, hrest⟩ := List.forall_mem_cons.mp hm
    obtain ⟨ms, types, hgrows, hwritten, hread⟩ := writeMessage_grows hr hfirst he w
    obtain ⟨hdone, hunseen⟩ := unseen_put hnames ((writeMessage r enclosing m).run w).1
    obtain ⟨others, types', hgrows', hwritten', hreads⟩ :=
      ih hrest hunseen ((writeMessage r enclosing m).run w).2
    refine ⟨(m.name, .object ms) :: others, types ++ types', hgrows.trans hgrows', ?_, ?_⟩
    · refine hwritten'.trans ?_
      rw [hdone, hwritten, List.append_assoc]
      rfl
    · exact hread.bind (hreads.bind (settles_ok _))

structure ReadyProtocol (r : Registry) (bare : Bool) (p : Protocol) : Prop where
  messages : ∀ m ∈ p.messages, Sendable r bare m
  names : (p.messages.map (·.name)).Nodup
  types : p.types = r.names
  space : InForce bare p.space
  properties : ("namespace" : Text) ∉ p.properties.keys

/-- What is written for a protocol once its types and messages have been. -/
def protocolMembers (p : Protocol) (types : List Json) (messages : Members) : Members :=
  let start :=
    member "protocol" (.string p.name) ++ optionalMember "namespace" (p.space.map .string) ++
      docMember p.doc
  ((start.merge p.properties).put "types" (.array types)).put "messages" (.object messages)

theorem get?_protocolMembers {p : Protocol} (hp : ("namespace" : Text) ∉ p.properties.keys)
    (types : List Json) (messages : Members) :
    (protocolMembers p types messages).get? "protocol" = some (.string p.name) ∧
      (protocolMembers p types messages).get? "namespace" = p.space.map .string ∧
      (protocolMembers p types messages).get? "types" = some (.array types) ∧
      (protocolMembers p types messages).get? "messages" = some (.object messages) := by
  have hspace := Members.get?_eq_none_iff.mpr hp
  unfold protocolMembers
  refine ⟨?_, ?_, ?_, ?_⟩ <;>
    simp +decide [Members.get?_put, Members.get?_merge, docMember, hspace]

/-- A protocol is read as it was written, every type once and the messages in their order. -/
theorem settles_writeProtocol (hr : Ready r bare) {p : Protocol} (hp : ReadyProtocol r bare p) :
    ∃ types, types.Perm (r.entries.map fun e => e.schema.asRead) ∧
      Settles (fun levels => readProtocol true levels ((writeProtocol r p).run []).1)
        ⟨types, p.messages.map Message.asRead⟩ := by
  have hunseen : Unseen Message.name (Members.keys []) p.messages :=
    ⟨hp.names, by simp [Members.keys]⟩
  obtain ⟨cs, hgrows, hreads, -, -, hall⟩ := writeTypes_grows hr hp.space p.types []
  obtain ⟨ms, types, hgrows', hwritten, hread⟩ :=
    writeMessages_grows hr hp.messages hp.space hunseen
      ((writeTypes r p.space p.types).run []).2
  refine ⟨cs.flatMap (·.types) ++ types, ?_, ?_⟩
  · refine types_perm_of_grows hr.lawful (hgrows.trans hgrows') fun name hname => ?_
    exact hgrows'.subset (hall name (hp.types ▸ hname) hname)
  · have hdocument : ((writeProtocol r p).run []).1 =
        .object (protocolMembers p ((writeTypes r p.space p.types).run []).1 ms) := by
      rw [List.nil_append] at hwritten
      rw [← hwritten]
      rfl
    obtain ⟨hname, hspace, htypes, hmessages⟩ :=
      get?_protocolMembers hp.properties ((writeTypes r p.space p.types).run []).1 ms
    rw [hdocument]
    simp only [readProtocol, hname, optionalString_of_get? hspace, protocolTypes, htypes,
      protocolMessages, hmessages]
    refine Settles.bind (settles_ok ()) ?_
    refine Settles.bind ((settles_readTypes hreads).bind (settles_ok _)) ?_
    exact hread.bind (settles_ok _)

theorem settles_writeNamed (hr : Ready r bare) :
    ∃ types schema, types.Perm (r.entries.map fun e => e.schema.asRead) ∧
      SettlesAt none ((writeNamed r r.names).run []).1 ⟨schema, types⟩ := by
  have he : InForce bare none := fun _ => rfl
  obtain ⟨cs, hgrows, hreads, hunion, hunseen, hall⟩ := writeTypes_grows hr he r.names []
  refine ⟨cs.flatMap (·.types), .compound (.union false) (cs.map (·.schema)) {}, ?_, ?_⟩
  · exact types_perm_of_grows hr.lawful hgrows fun name hname => hall name hname hname
  · exact settlesAt_array hreads hunion hunseen

end Unit

end Document

end AvroIdl
