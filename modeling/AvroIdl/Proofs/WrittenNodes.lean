import AvroIdl.Proofs.DefinitionOrder
import AvroIdl.Proofs.FixedKeys

/-!
# The nodes in a document

What is written for a schema is made of nodes: the definitions in it, and the fields of the records
among them. `Carries` lists the nodes of a value along the schema, each with the namespace in which
it was written. Whatever the registry and whatever has been written before, the writer gives such
values, and so it does for messages, for the document of a unit and for the schemas of its types.
-/
namespace AvroIdl

namespace Document

/-- The node of a definition that has no parts. -/
def leafNode? : Schema → Option Node
  | .enumeration h symbols default => some (.enumeration h symbols default)
  | .fixed h size => some (.fixed h size)
  | .compound (.logical k precision scale) (.fixed h size :: _) n =>
    some (.meaning k precision scale h size n)
  | _ => none

/-- Something that was written, and the nodes in what was written for it. -/
structure Piece (α : Type) where
  source : α
  json : Json
  sites : List Site

namespace Piece

/-- What is written for a field, over what was written for its type. -/
def fieldJson (x : Piece Field) : Json := .object (fieldMembers x.source x.json)

/-- A field and the nodes in its type. -/
def fieldSites (enclosing : Option Text) (x : Piece Field) : List Site :=
  ⟨.field x.source x.json, enclosing⟩ :: x.sites

end Piece

/-- The value was written for the schema in an enclosing namespace, and the sites are the nodes in
it. Where no more than a name is written, there are none. -/
inductive Carries (r : Registry) : Option Text → Schema → Json → List Site → Prop
  | name {enclosing : Option Text} (s : Schema) (text : Text) :
    Carries r enclosing s (.string text) []
  | primitive {enclosing : Option Text} (p : Primitive) (n : Note) :
    Carries r enclosing (.primitive p n)
      (.object ((member "type" (.string p.text)).merge n.properties)) []
  | target {enclosing : Option Text} {ref : Reference} {s : Schema} {j : Json} {sites : List Site}
      (found : r.lookup ref = some s) (shown : Carries r enclosing s j sites) :
    Carries r enclosing (.reference ref) j sites
  | leaf {enclosing : Option Text} {s : Schema} {node : Node}
      (definition : leafNode? s = some node) :
    Carries r enclosing s (.object (node.written enclosing)) [⟨node, enclosing⟩]
  | record {enclosing : Option Text} {h : Head} (isError : Bool) {fields : List (Piece Field)}
      (shown : ∀ x ∈ fields, Carries r (fieldNamespace h enclosing) x.source.type x.json x.sites) :
    Carries r enclosing (.record h isError (fields.map (·.source)))
      (.object ((Node.record h isError (fields.map (·.fieldJson))).written enclosing))
      (⟨.record h isError (fields.map (·.fieldJson)), enclosing⟩ ::
        fields.flatMap (·.fieldSites (fieldNamespace h enclosing)))
  | logical {enclosing : Option Text} (k : LogicalKind) (precision scale : Nat) {base : Schema}
      (plain : ∀ h size, base ≠ .fixed h size) (rest : List Schema) (n : Note) :
    Carries r enclosing (.compound (.logical k precision scale) (base :: rest) n)
      (.object (((member "type" (.string base.kind.text) ++ logicalMembers k precision scale).merge
        base.properties).merge n.properties)) []
  | container {enclosing : Option Text} {word key : Text} {shape : Shape} {s : Schema} {j : Json}
      {sites : List Site} (shape_of : containerOf? word = some (shape, key))
      (shown : Carries r enclosing s j sites) (rest : List Schema) (n : Note) :
    Carries r enclosing (.compound shape (s :: rest) n)
      (.object ((member "type" (.string word) ++ member key j).merge n.properties)) sites
  | union {enclosing : Option Text} (isOptional : Bool) {branches : List (Piece Schema)}
      (shown : ∀ x ∈ branches, Carries r enclosing x.source x.json x.sites) (n : Note) :
    Carries r enclosing (.compound (.union isOptional) (branches.map (·.source)) n)
      (.array (branches.map (·.json))) (branches.flatMap (·.sites))
  | hollow {enclosing : Option Text} {shape : Shape} (closed : ∀ o, shape ≠ .union o) (n : Note) :
    Carries r enclosing (.compound shape [] n) .null []

/-- A message over what was written for its types. -/
def messageNode (m : Message) (request : List (Piece Field)) (response : Piece Schema)
    (errors : List (Piece Schema)) : Node :=
  .message m (request.map (·.fieldJson)) response.json (m.errors.map fun _ => errors.map (·.json))

/-- The value was written for a message, and the sites are the nodes in it. -/
inductive CarriesMessage (r : Registry) (enclosing : Option Text) :
    Message → Json → List Site → Prop
  | sent {m : Message} {request : List (Piece Field)} {response : Piece Schema}
      {errors : List (Piece Schema)} (request_of : request.map (·.source) = m.request)
      (response_of : response.source = m.response)
      (errors_of : errors.map (·.source) = m.errors.getD [])
      (parameters : ∀ x ∈ request, Carries r enclosing x.source.type x.json x.sites)
      (returned : Carries r enclosing response.source response.json response.sites)
      (raised : ∀ x ∈ errors, Carries r enclosing x.source x.json x.sites) :
    CarriesMessage r enclosing m
      (.object ((messageNode m request response errors).written enclosing))
      (⟨messageNode m request response errors, enclosing⟩ ::
        (request.flatMap (·.fieldSites enclosing) ++ response.sites ++ errors.flatMap (·.sites)))

section Lists

variable {α : Type}

/-- What is written for a list is made of what is written for each, one after the other. -/
theorem exists_pieces {write : α → Writer Json} {carries : α → Json → List Site → Prop}
    {xs : List α} (h : ∀ x ∈ xs, ∀ w, ∃ sites, carries x ((write x).run w).1 sites)
    (wrap : α → Json → Json) (w : List Text) :
    ∃ pieces : List (Piece α), pieces.map (·.source) = xs ∧
      ((xs.mapM fun x => do return wrap x (← write x)).run w).1 =
        pieces.map (fun x => wrap x.source x.json) ∧
      ∀ x ∈ pieces, carries x.source x.json x.sites := by
  induction xs generalizing w with
  | nil => exact ⟨[], rfl, rfl, by simp⟩
  | cons x xs ih =>
    obtain ⟨hx, hxs⟩ := List.forall_mem_cons.mp h
    obtain ⟨sites, hsites⟩ := hx w
    obtain ⟨pieces, rfl, hjson, hpieces⟩ := ih hxs ((write x).run w).2
    refine ⟨⟨x, ((write x).run w).1, sites⟩ :: pieces, rfl, ?_, ?_⟩
    · rw [mapM_cons_run, hjson]
      rfl
    · exact List.forall_mem_cons.mpr ⟨hsites, hpieces⟩

end Lists

section Writing

variable {r : Registry} {follow : Reference → Option Text → Writer Json} {enclosing : Option Text}

theorem carries_once (node : Node) {s : Schema} (h : leafNode? s = some node) (head : Head)
    (w : List Text) :
    ∃ sites, Carries r enclosing s
      ((once head enclosing (return node.written enclosing)).run w).1 sites := by
  by_cases hknown : head.full ∈ w
  · rw [once_run_known hknown]
    exact ⟨[], .name s _⟩
  · rw [once_run hknown]
    exact ⟨_, .leaf h⟩

theorem carries_record {h : Head} (isError : Bool) {fields : List Field}
    (hfields : ∀ f ∈ fields, ∀ w, ∃ sites, Carries r (fieldNamespace h enclosing) f.type
      ((writeWith follow (fieldNamespace h enclosing) f.type).run w).1 sites) (w : List Text) :
    ∃ sites, Carries r enclosing (.record h isError fields)
      ((writeWith follow enclosing (.record h isError fields)).run w).1 sites := by
  rw [writeWith, writeFields_eq_mapM]
  by_cases hknown : h.full ∈ w
  · rw [once_run_known hknown]
    exact ⟨[], .name _ _⟩
  · rw [once_run hknown]
    obtain ⟨pieces, rfl, hjson, hpieces⟩ :=
      exists_pieces hfields (fun f j => .object (fieldMembers f j)) (h.full :: w)
    have hshows : Carries r enclosing (.record h isError (pieces.map (·.source))) _ _ :=
      .record isError hpieces
    rw [Node.written, show pieces.map (·.fieldJson) = _ from hjson.symm] at hshows
    exact ⟨_, hshows⟩

theorem carries_union {parts : List Schema}
    (hparts : ∀ s ∈ parts, ∀ w, ∃ sites,
      Carries r enclosing s ((writeWith follow enclosing s).run w).1 sites)
    (isOptional : Bool) (n : Note) (w : List Text) :
    ∃ sites, Carries r enclosing (.compound (.union isOptional) parts n)
      ((writeWith follow enclosing (.compound (.union isOptional) parts n)).run w).1 sites := by
  obtain ⟨pieces, rfl, hjson, hpieces⟩ := exists_pieces hparts (fun _ j => j) w
  have hshows : Carries r enclosing (.compound (.union isOptional) (pieces.map (·.source)) n) _ _ :=
    .union isOptional hpieces n
  rw [← hjson] at hshows
  simp only [bind_pure] at hshows
  rw [writeWith, writeParts_eq_mapM]
  exact ⟨_, hshows⟩

/-- If the writer of references gives values with nodes, so does the writer of types. -/
theorem carries_with
    (hfollow : ∀ ref enclosing w, ∃ sites,
      Carries r enclosing (.reference ref) ((follow ref enclosing).run w).1 sites)
    (s : Schema) (enclosing : Option Text) (w : List Text) :
    ∃ sites, Carries r enclosing s ((writeWith follow enclosing s).run w).1 sites := by
  induction s using Schema.induct generalizing enclosing w with
  | primitive p n =>
    rw [writeWith]
    split
    · exact ⟨[], .name _ _⟩
    · exact ⟨[], .primitive p n⟩
  | reference ref =>
    rw [writeWith]
    exact hfollow ref enclosing w
  | enumeration h symbols default =>
    rw [writeWith]
    exact carries_once (.enumeration h symbols default) rfl h w
  | fixed h size =>
    rw [writeWith]
    exact carries_once (.fixed h size) rfl h w
  | record h isError fields ih => exact carries_record isError (fun f hf w => ih f hf _ w) w
  | compound shape parts n ih =>
    by_cases hshape : ∃ o, shape = .union o
    · obtain ⟨o, rfl⟩ := hshape
      exact carries_union (fun s hs w => ih s hs enclosing w) o n w
    · -- a shape other than a union is written with its first part only
      have hclosed : ∀ o, shape ≠ .union o := fun o ho => hshape ⟨o, ho⟩
      cases parts with
      | nil =>
        rw [writeWith_hollow _ _ hclosed]
        exact ⟨[], .hollow hclosed n⟩
      | cons part rest =>
        obtain ⟨sites, hpart⟩ := ih part List.mem_cons_self enclosing w
        cases shape with
        | union o => exact absurd rfl (hclosed o)
        | array =>
          rw [writeWith]
          have hshape : containerOf? "array" = some (.array, ("items" : Text)) := rfl
          exact ⟨sites, .container hshape hpart rest n⟩
        | map =>
          rw [writeWith]
          have hshape : containerOf? "map" = some (.map, ("values" : Text)) := rfl
          exact ⟨sites, .container hshape hpart rest n⟩
        | logical k precision scale =>
          by_cases hfixed : ∃ h size, part = .fixed h size
          · obtain ⟨h, size, rfl⟩ := hfixed
            rw [writeWith]
            exact carries_once (.meaning k precision scale h size n) rfl h w
          · have hplain : ∀ h size, part ≠ .fixed h size := fun h size he => hfixed ⟨h, size, he⟩
            rw [writeWith_logical _ _ _ _ _ hplain]
            exact ⟨[], .logical k precision scale hplain rest n⟩

theorem carries_reference (steps : Nat) (ref : Reference) (enclosing : Option Text)
    (w : List Text) :
    ∃ sites, Carries r enclosing (.reference ref)
      ((writeReference r steps ref enclosing).run w).1 sites := by
  induction steps generalizing ref enclosing w with
  | zero => exact ⟨[], .name _ _⟩
  | succ steps ih =>
    by_cases hknown : ∀ s, r.lookup ref = some s → s.full ∈ w
    · rw [writeReference_of_known hknown]
      exact ⟨[], .name _ _⟩
    · obtain ⟨s, hs, hnew⟩ : ∃ s, r.lookup ref = some s ∧ s.full ∉ w := by
        simpa only [not_forall, exists_prop] using hknown
      obtain ⟨sites, hshown⟩ := carries_with ih s enclosing w
      rw [writeReference_of_new hs hnew]
      exact ⟨sites, .target hs hshown⟩

/-- Whatever is registered and whatever has been written, the nodes in what is written for a schema
can be listed. -/
theorem carries_schema (r : Registry) (s : Schema) (enclosing : Option Text) (w : List Text) :
    ∃ sites, Carries r enclosing s ((writeSchema r s enclosing).run w).1 sites :=
  carries_with (carries_reference r.size) s enclosing w

theorem written_messageNode {m : Message} {request : List (Piece Field)} {response : Piece Schema}
    {errors : List (Piece Schema)} (h : errors.map (·.source) = m.errors.getD []) :
    (messageNode m request response errors).written enclosing =
      messageMembers m (request.map (·.fieldJson)) response.json (errors.map (·.json)) := by
  cases herrors : m.errors with
  | none =>
    obtain rfl : errors = [] := by simpa [herrors] using h
    simp [messageNode, Node.written, herrors]
  | some ss => simp [messageNode, Node.written, herrors]

theorem carries_message (r : Registry) (m : Message) (enclosing : Option Text) (w : List Text) :
    ∃ sites, CarriesMessage r enclosing m ((writeMessage r enclosing m).run w).1 sites := by
  obtain ⟨request, hrequest, hjson, hparameters⟩ :=
    exists_pieces (fun f _ w => carries_schema r f.type enclosing w)
      (fun f j => .object (fieldMembers f j)) w
  obtain ⟨sites, hresponse⟩ := carries_schema r m.response enclosing
    ((m.request.mapM (writeField fun s => writeSchema r s enclosing)).run w).2
  obtain ⟨errors, herrors, hjsons, hraised⟩ :=
    exists_pieces (fun s _ w => carries_schema r s enclosing w) (fun _ j => j)
      ((writeSchema r m.response enclosing).run
        ((m.request.mapM (writeField fun s => writeSchema r s enclosing)).run w).2).2
  have hsent := @CarriesMessage.sent r enclosing m request ⟨m.response, _, sites⟩ errors hrequest
    rfl herrors hparameters hresponse hraised
  rw [written_messageNode herrors, show request.map (·.fieldJson) = _ from hjson.symm,
    ← hjsons] at hsent
  simp only [bind_pure] at hsent
  rw [writeMessage_run]
  exact ⟨_, hsent⟩

/-- Each value in a list of types was written for a registered one. -/
def CarriesTypes (r : Registry) (enclosing : Option Text) (types : List (Piece Schema)) : Prop :=
  ∀ x ∈ types, (∃ e ∈ r.entries, e.schema = x.source) ∧
    Carries r enclosing x.source x.json x.sites

theorem carries_types (r : Registry) (enclosing : Option Text) (names w : List Text) :
    ∃ types, ((writeTypes r enclosing names).run w).1 = types.map (·.json) ∧
      CarriesTypes r enclosing types := by
  induction names generalizing w with
  | nil => exact ⟨[], rfl, by simp [CarriesTypes]⟩
  | cons name names ih =>
    by_cases hknown : ∀ s, r.find? name = some s → name ∈ w
    · rw [writeTypes_of_known hknown]
      exact ih w
    · obtain ⟨s, hs, hnew⟩ : ∃ s, r.find? name = some s ∧ name ∉ w := by
        simpa only [not_forall, exists_prop] using hknown
      obtain ⟨e, hmem, rfl, -⟩ := Registry.exists_entry_of_find? hs
      obtain ⟨sites, hshown⟩ := carries_schema r e.schema enclosing w
      obtain ⟨types, hjson, htypes⟩ := ih ((writeSchema r e.schema enclosing).run w).2
      rw [writeTypes_of_new hs hnew]
      refine ⟨⟨e.schema, _, sites⟩ :: types, congrArg (_ :: ·) hjson, ?_⟩
      exact List.forall_mem_cons.mpr ⟨⟨⟨e, hmem, rfl⟩, hshown⟩, htypes⟩

/-- Messages of different names are written after those before them, each as its own member. -/
theorem carries_messages (r : Registry) (enclosing : Option Text) {done : Members}
    {messages : List Message} (hnames : Unseen Message.name done.keys messages) (w : List Text) :
    ∃ sent : List (Piece Message), sent.map (·.source) = messages ∧
      ((writeMessages r enclosing done messages).run w).1 =
        done ++ sent.map (fun x => (x.source.name, x.json)) ∧
      ∀ x ∈ sent, CarriesMessage r enclosing x.source x.json x.sites := by
  induction messages generalizing done w with
  | nil => exact ⟨[], rfl, (List.append_nil done).symm, by simp⟩
  | cons m messages ih =>
    obtain ⟨sites, hshown⟩ := carries_message r m enclosing w
    obtain ⟨hdone, hunseen⟩ := unseen_put hnames ((writeMessage r enclosing m).run w).1
    obtain ⟨sent, hsource, hjson, hsent⟩ := ih hunseen ((writeMessage r enclosing m).run w).2
    refine ⟨⟨m, ((writeMessage r enclosing m).run w).1, sites⟩ :: sent,
      congrArg (m :: ·) hsource, ?_, ?_⟩
    · refine hjson.trans ?_
      rw [hdone, List.append_assoc]
      rfl
    · exact List.forall_mem_cons.mpr ⟨hshown, hsent⟩

end Writing

end Document

namespace Compilation

open Document

/-- What is written for a unit: its document, and a schema for each of its types. -/
def Root.outputs (unit : Root) : List Json :=
  unit.document ::
    unit.registry.entries.map fun e => ((writeStandalone unit.registry e.schema.full).run []).1

/-- The value was written for a unit, and the sites are the nodes in it. -/
inductive Root.Carries (unit : Root) : Json → List Site → Prop
  | protocol {p : Protocol} {types : List (Piece Schema)} {sent : List (Piece Message)}
      (content : unit.file.content = .protocol p)
      (types_of : CarriesTypes unit.registry p.space types)
      (messages_of : sent.map (·.source) = p.messages)
      (shown : ∀ x ∈ sent, CarriesMessage unit.registry p.space x.source x.json x.sites) :
    Carries unit
      (.object (protocolMembers p (types.map (·.json))
        (sent.map fun x => (x.source.name, x.json))))
      (types.flatMap (·.sites) ++ sent.flatMap (·.sites))
  | main {s : Schema} {j : Json} {sites : List Site} (content : unit.file.content = .schema s)
      (shown : Document.Carries unit.registry none s j sites) : Carries unit j sites
  | named {types : List (Piece Schema)} (content : unit.file.content = .named)
      (types_of : CarriesTypes unit.registry none types) :
    Carries unit (.array (types.map (·.json))) (types.flatMap (·.sites))
  | standalone {e : Registry.Entry} {j : Json} {sites : List Site}
      (entry : e ∈ unit.registry.entries)
      (shown : Document.Carries unit.registry none e.schema j sites) : Carries unit j sites

/-- The nodes in whatever is written for a unit can be listed. -/
theorem Root.exists_sites {unit : Root} (hr : unit.registry.Lawful)
    (hm : ((Root.messages unit.file).map (·.name)).Nodup) {j : Json} (hj : j ∈ unit.outputs) :
    ∃ sites, unit.Carries j sites := by
  rcases List.mem_cons.mp hj with rfl | hj
  · unfold Root.document
    cases hcontent : unit.file.content with
    | protocol p =>
      rw [Root.messages, hcontent] at hm
      obtain ⟨types, hjson, htypes⟩ := carries_types unit.registry p.space p.types []
      have hunseen : Unseen Message.name (Members.keys []) p.messages :=
        ⟨hm, by simp [Members.keys]⟩
      obtain ⟨sent, hsource, hmessages, hsent⟩ := carries_messages unit.registry p.space hunseen
        ((writeTypes unit.registry p.space p.types).run []).2
      have hshown := Root.Carries.protocol hcontent htypes hsource hsent
      rw [← hjson, show sent.map _ = _ from hmessages.symm] at hshown
      exact ⟨_, hshown⟩
    | schema s =>
      obtain ⟨sites, hshown⟩ := carries_schema unit.registry s none []
      exact ⟨sites, .main hcontent hshown⟩
    | named =>
      obtain ⟨types, hjson, htypes⟩ := carries_types unit.registry none unit.file.names []
      have hshown := Root.Carries.named hcontent htypes
      rw [← hjson] at hshown
      exact ⟨_, hshown⟩
  · obtain ⟨e, he, rfl⟩ := List.mem_map.mp hj
    obtain ⟨sites, hshown⟩ := carries_schema unit.registry e.schema none []
    simp only [writeStandalone, hr.find?_of_mem he]
    exact ⟨sites, .standalone he hshown⟩

end Compilation

end AvroIdl
