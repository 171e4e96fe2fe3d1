import AvroIdl.Proofs.DeclarationRules
import AvroIdl.Proofs.DocumentContent
import AvroIdl.Proofs.WrittenNodes

/-!
# Properties at fixed keys

The annotations of a declaration that have a meaning of their own are no properties, and the reader
of documents leaves out all fixed keys. In a compiled unit a property can therefore stand at the key
of a documentation, a default, the errors or the mark of a message without a reply, and where these
are absent the documents of the unit show the property in their place.
-/
namespace AvroIdl

open Document (definitionMarks fieldMarks)

/-- A reference leads to a registered type, bound or not. -/
theorem Registry.exists_mem_of_lookup {r : Registry} {ref : Reference} {s : Schema}
    (h : r.lookup ref = some s) : ∃ e ∈ r.entries, e.schema = s := by
  unfold lookup at h
  split at h
  · next e he =>
    cases h
    obtain ⟨i, -, he⟩ := Option.bind_eq_some_iff.mp he
    exact ⟨e, List.mem_of_getElem? he, rfl⟩
  · obtain ⟨e, he, hschema, -⟩ := exists_entry_of_find? h
    exact ⟨e, he, hschema⟩

theorem Members.free_without {ms : Members} {left keys : List Text} (h : keys ⊆ left) :
    (ms.without left).Free keys :=
  fun _ hkey hin => (Members.mem_keys_without_iff.mp hin).2 (h hkey)

/-- No property of a definition or of its fields is what there is an annotation for. -/
def Schema.Intercepted : Schema → Prop
  | .record h _ fields =>
    h.properties.Free definitionMarks ∧ ∀ f ∈ fields, f.properties.Free fieldMarks
  | .enumeration h _ _ | .fixed h _ => h.properties.Free definitionMarks
  | .compound (.logical _ _ _) (.fixed h _ :: _) n =>
    (h.properties ++ n.properties).Free definitionMarks
  | _ => True

/-- No property of a parameter is what there is an annotation for, and an empty list of errors has
no property beside it. -/
structure Message.Intercepted (m : Message) : Prop where
  parameters : ∀ f ∈ m.request, f.properties.Free fieldMarks
  errors : m.errors = some [] → ("errors" : Text) ∉ m.properties.keys

namespace Schema

theorem Intercepted.bind {s : Schema} (h : s.Intercepted) (place : Placement) (levels : Nat) :
    (s.bind place levels).Intercepted := by
  cases levels with
  | zero =>
    rw [bind_zero]
    exact h
  | succ levels =>
    cases s with
    | record head e fields => simpa [Intercepted] using h
    | enumeration head symbols default => simpa using h
    | fixed head size => simpa using h
    | primitive p n => simpa using h
    | reference r => trivial
    | compound shape parts n =>
      rw [bind_compound]
      cases shape with
      | logical k precision scale =>
        cases parts with
        | nil => trivial
        | cons base rest =>
          cases base with
          | fixed head size =>
            rw [List.map_cons, bind_fixed]
            exact h
          | _ => cases levels <;> simp [Intercepted]
      | _ => trivial

/-- A schema without definitions has nothing at whose keys properties could stand. -/
theorem everywhere_intercepted {s : Schema} (h : s.Everywhere fun t => t.head? = none) :
    s.Everywhere Intercepted := by
  induction s using Schema.induct with
  | primitive p n => exact everywhere_primitive_iff.mpr trivial
  | reference r => exact everywhere_reference_iff.mpr trivial
  | enumeration head symbols default => cases h.self
  | fixed head size => cases h.self
  | record head e fields ih => cases h.self
  | compound shape parts n ih =>
    have hparts := (everywhere_compound_iff.mp h).2
    refine everywhere_compound_iff.mpr ⟨?_, fun p hp => ih p hp (hparts p hp)⟩
    cases shape with
    | logical k precision scale =>
      cases parts with
      | nil => trivial
      | cons base rest =>
        have hbase := (hparts base List.mem_cons_self).self
        cases base with
        | fixed head size => cases hbase
        | _ => trivial
    | _ => trivial

end Schema

theorem Message.Intercepted.bindAll {m : Message} (h : m.Intercepted) (place : Placement) :
    (m.bindAll place).Intercepted := by
  refine ⟨by simpa [Message.bindAll] using h.parameters, fun herrors => h.errors ?_⟩
  simpa [Message.bindAll] using herrors

namespace Build

theorem free_headOf (c : Context) (name : Identifier) (doc : Option Text) (as : List Annotation) :
    Yields (headOf c name doc as) fun p => p.2.properties.Free definitionMarks := by
  refine .bind (AnnotationSet.collect_yields c.file _ as) fun set hset => ?_
  refine .bind (.any _) fun q _ => .ok fun key hkey => hset.free key ?_
  simpa [definitionMarks, Targets.Takes] using hkey

theorem free_fieldOf (c : Context) (owner : Text) (type : TypeNode) (typeDoc : Option Text)
    (d : Declarator) :
    (fieldOf c owner type typeDoc d).Gives fun f => f.properties.Free fieldMarks := by
  refine .bind (.ofExcept (AnnotationSet.collect_yields c.file _ d.annotations)) fun set hset => ?_
  dsimp only
  split
  · exact .fail
  · refine .bind (.any _) fun s _ => .bind (.any _) fun p _ => .pure fun key hkey => ?_
    refine hset.free key ?_
    simpa [fieldMarks, Targets.Takes] using hkey

theorem intercepted_promote {h : Head} {size : Nat} (hf : h.properties.Free definitionMarks) :
    (Schema.fixed h size).promote.Intercepted := by
  rw [Schema.promote_eq]
  split
  · exact hf
  · intro key hkey hin
    exact hf key hkey (Members.mem_keys_without_iff.mp hin).1

theorem intercepted_recordOf (c : Context) (d : RecordDecl) :
    (recordOf c d).Gives Schema.Intercepted := by
  refine .bind (.ofExcept (free_headOf c d.name d.doc d.annotations)) fun p hp => ?_
  obtain ⟨q, head⟩ := p
  exact .bind (recordFields_gives_all free_fieldOf _ _ [] d.fields) fun fields hfields =>
    .pure ⟨hp, hfields⟩

theorem intercepted_enumOf (c : Context) (d : EnumDecl) :
    Yields (enumOf c d) Schema.Intercepted := by
  refine .bind (free_headOf c d.name d.doc d.annotations) fun p hp => ?_
  obtain ⟨q, head⟩ := p
  refine .bind (.any _) fun symbols _ => ?_
  split
  · exact .ok hp
  · split
    · exact .ok hp
    · exact .error

theorem intercepted_fixedOf (c : Context) (d : FixedDecl) :
    Yields (fixedOf c d) Schema.Intercepted := by
  refine .bind (free_headOf c d.name d.doc d.annotations) fun p hp => ?_
  obtain ⟨q, head⟩ := p
  dsimp only
  split
  · exact .ok (intercepted_promote hp)
  · exact .error

/-- A message that is well formed by the grammar does not declare an empty list of errors. -/
theorem intercepted_messageOf (c : Context) {d : MessageDecl} (h : d.WellFormed) :
    (messageOf c d).Gives Message.Intercepted := by
  refine .bind (.any _) fun set _ => ?_
  dsimp only
  split
  · exact .fail
  · refine .bind (.any _) fun response _ => ?_
    refine .bind (parametersOf_gives_all free_fieldOf c _ [] d.parameters) fun request hrequest =>
      .pure ⟨hrequest, fun herrors => absurd ?_ h.errors⟩
    simpa using herrors

end Build

namespace Document

theorem free_readField (one : Json → Outcome Converted) (name : Text) (ms : Members) :
    Yields (readField one name ms) fun p => p.1.properties.Free fieldMarks := by
  unfold readField
  dsimp only
  split
  · exact .error
  · refine .bind (.any _) fun _ _ => .bind (.any _) fun _ _ => .bind (.any _) fun _ _ => ?_
    exact .bind (.any _) fun _ _ => .ok (Members.free_without (by decide))

/-- The reader leaves out the fixed keys. -/
theorem supply_intercepted : Supply Schema.Intercepted Message.Intercepted where
  record one j := fun p hp head isError ms hproperties => by
    refine ⟨?_, readFields_gives_all free_readField one j p hp⟩
    rw [hproperties]
    exact Members.free_without (by decide)
  enum head owner ms := by
    unfold readEnum
    split
    · exact .error
    · refine .bind (.any _) fun symbols _ => ?_
      split
      · exact .error
      · exact .bind (.any _) fun _ _ => .ok (Members.free_without (by decide))
  fixed head owner ms := by
    unfold readFixed
    split
    · split
      · exact .ok (Build.intercepted_promote (Members.free_without (by decide)))
      · exact .error
    · exact .error
  message levels space name ms := by
    have hrequest : Yields (readRequest levels space name ms) fun p =>
        ∀ f ∈ p.1, f.properties.Free fieldMarks := by
      unfold readRequest
      split
      · exact .error
      · exact readFields_gives_all free_readField _ _
    refine .bind (.any _) fun _ _ => .bind hrequest fun request hrequest => ?_
    refine .bind (.any _) fun _ _ => .bind (.any _) fun _ _ => .bind (.any _) fun _ _ => .ok ?_
    exact ⟨hrequest, fun _ hin => (Members.mem_keys_without_iff.mp hin).2 (by decide)⟩

theorem free_of_leafNode? {s : Schema} {node : Node} (h : leafNode? s = some node)
    (hs : s.Intercepted) : node.properties.Free node.taken := by
  unfold leafNode? at h
  split at h <;> cases h <;> exact hs

theorem free_fieldSites {x : Piece Field} (h : x.source.properties.Free fieldMarks)
    (hx : ∀ y ∈ x.sites, y.node.properties.Free y.node.taken) (enclosing : Option Text) :
    ∀ y ∈ x.fieldSites enclosing, y.node.properties.Free y.node.taken :=
  List.forall_mem_cons.mpr ⟨h, hx⟩

theorem free_messageNode {m : Message} (hm : m.Intercepted) (request : List (Piece Field))
    (response : Piece Schema) {errors : List (Piece Schema)}
    (h : errors.map (·.source) = m.errors.getD []) :
    (messageNode m request response errors).properties.Free
      (messageNode m request response errors).taken := by
  cases herrors : m.errors with
  | none => simp [messageNode, herrors, Node.taken, Members.Free]
  | some ss =>
    cases errors with
    | nil =>
      obtain rfl : ss = [] := by simpa [herrors] using h.symm
      simpa [messageNode, herrors, Node.taken, Node.properties, Members.Free] using
        hm.errors herrors
    | cons e errors => simp [messageNode, herrors, Node.taken, Members.Free]

section Carries

variable {r : Registry} (hr : ∀ e ∈ r.entries, e.schema.Everywhere Schema.Intercepted)

include hr

theorem Carries.free {enclosing : Option Text} {s : Schema} {j : Json} {sites : List Site}
    (h : Carries r enclosing s j sites) (hs : s.Everywhere Schema.Intercepted) :
    ∀ x ∈ sites, x.node.properties.Free x.node.taken := by
  induction h with
  | name | primitive | logical | hollow => simp
  | target found shown ih =>
    obtain ⟨e, he, rfl⟩ := Registry.exists_mem_of_lookup found
    exact ih (hr e he)
  | leaf definition => exact List.forall_mem_singleton.mpr (free_of_leafNode? definition hs.self)
  | record isError shown ih =>
    obtain ⟨⟨hhead, hfields⟩, htypes⟩ := Schema.everywhere_record_iff.mp hs
    rw [List.forall_mem_map] at hfields htypes
    refine List.forall_mem_cons.mpr ⟨hhead, List.forall_mem_flatMap.mpr fun f hf => ?_⟩
    exact free_fieldSites (hfields f hf) (ih f hf (htypes f hf)) _
  | container shape_of shown rest n ih =>
    exact ih ((Schema.everywhere_compound_iff.mp hs).2 _ List.mem_cons_self)
  | union isOptional shown n ih =>
    have hbranches := (Schema.everywhere_compound_iff.mp hs).2
    rw [List.forall_mem_map] at hbranches
    exact List.forall_mem_flatMap.mpr fun b hb => ih b hb (hbranches b hb)

theorem CarriesMessage.free {enclosing : Option Text} {m : Message} {j : Json} {sites : List Site}
    (h : CarriesMessage r enclosing m j sites) (hm : m.Intercepted)
    (htypes : ∀ s ∈ m.types, s.Everywhere Schema.Intercepted) :
    ∀ x ∈ sites, x.node.properties.Free x.node.taken := by
  cases h with
  | @sent request response errors request_of response_of errors_of parameters returned raised =>
    have hparameters := hm.parameters
    rw [← request_of, List.forall_mem_map] at hparameters
    obtain ⟨hrequest, hrest⟩ := List.forall_mem_append.mp htypes
    obtain ⟨hresponse, herrors⟩ := List.forall_mem_cons.mp hrest
    rw [← request_of, List.forall_mem_map, List.forall_mem_map] at hrequest
    rw [← response_of] at hresponse
    rw [← errors_of, List.forall_mem_map] at herrors
    refine List.forall_mem_cons.mpr ⟨free_messageNode hm request response errors_of, ?_⟩
    refine List.forall_mem_append.mpr ⟨List.forall_mem_append.mpr ⟨?_, ?_⟩, ?_⟩
    · exact List.forall_mem_flatMap.mpr fun f hf =>
        free_fieldSites (hparameters f hf) ((parameters f hf).free hr (hrequest f hf)) enclosing
    · exact returned.free hr hresponse
    · exact List.forall_mem_flatMap.mpr fun e he => (raised e he).free hr (herrors e he)

end Carries

end Document

namespace Compilation

open Document Build

/-- A registered type is intercepted throughout if its own definition is. -/
theorem Root.Sound.everywhere_intercepted {unit : Root} (hsound : unit.Sound) {e : Registry.Entry}
    (he : e ∈ unit.registry.entries) (h : e.schema.Intercepted) :
    e.schema.Everywhere Schema.Intercepted := by
  have hdefinition := hsound.entries e he
  have hnested := hsound.nested e he
  generalize e.schema = s at h hdefinition hnested
  cases hdefinition with
  | record head isError fields =>
    refine Schema.everywhere_record_iff.mpr ⟨h, fun f hf => ?_⟩
    refine Schema.everywhere_intercepted fun depth t ho => ?_
    -- a definition inside a record would make it a logical type
    cases ht : t.head? with
    | none => exact ht
    | some inner =>
      obtain ⟨_, _, _, _, _, heq, -⟩ := hnested depth t inner (.inField hf ho) ht
      cases heq
  | enumeration head symbols default => exact Schema.everywhere_enumeration_iff.mpr h
  | fixed head size => exact Schema.everywhere_fixed_iff.mpr h
  | logical kind precision scale head size n =>
    refine Schema.everywhere_compound_iff.mpr ⟨h, List.forall_mem_singleton.mpr ?_⟩
    refine Schema.everywhere_fixed_iff.mpr fun key hkey hin => h key hkey ?_
    rw [Members.keys_append]
    exact List.mem_append_left _ hin

section Compiled

variable {tree : FileTree} {searchDirectories : List Path} {source : Text} {path : Path}
  {unit : Root}

/-- What a build takes up has no property that there is an annotation for. -/
theorem supply_intercepted (tree : FileTree) :
    Build.Supply tree Schema.Intercepted Message.Intercepted where
  record := intercepted_recordOf
  enum := intercepted_enumOf
  fixed := intercepted_fixedOf
  message htree _ hd c := intercepted_messageOf c ((wellFormed_of_treeOf htree).message hd)
  types h := by
    obtain ⟨_, j, -, hread | hread⟩ := exists_read_of_document? h
    · exact (Document.supply_intercepted.ofProtocol true j _ hread).1
    · exact (Document.supply_intercepted.ofSchema true j _ hread).1
  messages h := by
    obtain ⟨_, j, -, hread | hread⟩ := exists_read_of_document? h
    · exact (Document.supply_intercepted.ofProtocol true j _ hread).2
    · exact (Document.supply_intercepted.ofSchema true j _ hread).2

theorem intercepted_of_root (h : (root tree searchDirectories source path).result = .ok unit) :
    (∀ s ∈ unit.types, s.Everywhere Schema.Intercepted) ∧
      ∀ m ∈ Root.messages unit.file, m.Intercepted := by
  have hsound := sound_of_root h
  obtain ⟨registry, file, hr, hf, hfinish⟩ := exists_built_of_root (supply_intercepted tree) h
  obtain ⟨-, -, heq⟩ := finish_eq_ok hfinish
  have hentries : ∀ e ∈ unit.registry.entries, e.schema.Intercepted := by
    rw [heq]
    intro e he
    obtain ⟨built, hbuilt, rfl⟩ := List.mem_map.mp he
    exact (hr.all built hbuilt).bind _ _
  constructor
  · intro s hs
    rcases Root.mem_types_iff.mp hs with ⟨e, he, rfl⟩ | hused
    · exact hsound.everywhere_intercepted he (hentries e he)
    · exact Schema.everywhere_intercepted (hsound.used s hused)
  · rw [heq, (Root.content_resolved registry file _).1]
    intro m hm
    obtain ⟨built, hbuilt, rfl⟩ := List.mem_map.mp hm
    exact (hf.messages.all built hbuilt).bindAll _

theorem Root.Carries.free {j : Json} {sites : List Site} (hs : unit.Carries j sites)
    (htypes : ∀ s ∈ unit.types, s.Everywhere Schema.Intercepted)
    (hmessages : ∀ m ∈ Root.messages unit.file, m.Intercepted) :
    ∀ x ∈ sites, x.node.properties.Free x.node.taken := by
  have hentries : ∀ e ∈ unit.registry.entries, e.schema.Everywhere Schema.Intercepted :=
    fun e he => htypes _ (Root.mem_types_iff.mpr (.inl ⟨e, he, rfl⟩))
  have hlist : ∀ {space types}, CarriesTypes unit.registry space types →
      ∀ x ∈ types.flatMap (·.sites), x.node.properties.Free x.node.taken := by
    refine fun hcarries => List.forall_mem_flatMap.mpr fun t ht => ?_
    obtain ⟨⟨e, he, heq⟩, hshown⟩ := hcarries t ht
    exact hshown.free hentries (heq ▸ hentries e he)
  cases hs with
  | @protocol p types sent content types_of messages_of shown =>
    have hall : Root.messages unit.file = p.messages := by rw [Root.messages, content]
    refine List.forall_mem_append.mpr ⟨hlist types_of, List.forall_mem_flatMap.mpr fun m hm => ?_⟩
    have hmem : m.source ∈ Root.messages unit.file := by
      rw [hall, ← messages_of]
      exact List.mem_map_of_mem hm
    refine (shown m hm).free hentries (hmessages _ hmem) fun s hs => htypes s ?_
    exact Root.mem_types_iff.mpr
      (.inr (List.mem_append_left _ (List.mem_flatMap.mpr ⟨_, hmem, hs⟩)))
  | @main s _ _ content hshown =>
    refine hshown.free hentries (htypes s (Root.mem_types_iff.mpr (.inr ?_)))
    refine List.mem_append_right _ ?_
    simp [Root.main?, content]
  | named content types_of => exact hlist types_of
  | @standalone e _ _ entry hshown => exact hshown.free hentries (hentries e entry)

/-- In whatever is written for a compiled unit, a fixed key of a node that is there shows the
attribute of the node, unless a property fills the place of a documentation, a default, errors or
the mark of a message without a reply that the node does not have. -/
theorem exactAt_iff_of_root (h : (root tree searchDirectories source path).result = .ok unit)
    {j : Json} (hj : j ∈ unit.outputs) :
    (∃ sites, unit.Carries j sites) ∧
      ∀ sites, unit.Carries j sites → ∀ x ∈ sites, ∀ key ∈ x.node.keys,
        (x.ExactAt key ↔ ¬x.node.Fills key) := by
  obtain ⟨htypes, hmessages⟩ := intercepted_of_root h
  refine ⟨Root.exists_sites (wellShaped_of_root h).lawful (sound_of_root h).messages hj, ?_⟩
  exact fun sites hs x hx key hk => Site.exactAt_iff (hs.free htypes hmessages x hx) hk

end Compiled

/-- Whether a value is this number. -/
def isInteger (n : Int) : Json → Bool
  | .integer i => i == n
  | _ => false

/-- Whether a value is this string. -/
def isString (text : Text) : Json → Bool
  | .string s => s == text
  | _ => false

theorem eq_integer_of_isInteger {n : Int} {j : Json} (h : isInteger n j = true) :
    j = .integer n := by
  cases j with
  | integer i => exact congrArg Json.integer (beq_iff_eq.mp h)
  | _ => cases h

theorem eq_string_of_isString {text : Text} {j : Json} (h : isString text j = true) :
    j = .string text := by
  cases j with
  | string s => exact congrArg Json.string (beq_iff_eq.mp h)
  | _ => cases h

/-- Whether the only type of a unit is a record that is written in full and has such a field. -/
def Root.hasField (unit : Root) (p : Field → Bool) : Bool :=
  match unit.file.content, unit.registry.entries, unit.document with
  | .named, [e], .array [.object _] =>
    match e.schema with
    | .record _ _ fields => fields.any p
    | _ => false
  | _, _, _ => false

theorem Root.Carries.exists_field {unit : Root} {sites : List Site}
    (hs : unit.Carries unit.document sites) {p : Field → Bool} (h : unit.hasField p = true) :
    ∃ x ∈ sites, ∃ f type, x.node = .field f type ∧ p f = true := by
  unfold Root.hasField at h
  split at h
  · next e ms content entries hdocument =>
    rw [hdocument] at hs
    split at h
    · next head isError fields hschema =>
      obtain ⟨f, hf, hp⟩ := List.any_eq_true.mp h
      generalize hj : Json.array [.object ms] = j at hs
      cases hs with
      | protocol hprotocol => cases hj
      | main hmain => cases content.symm.trans hmain
      | standalone hentry hshown =>
        rw [entries, List.mem_singleton] at hentry
        rw [hentry, hschema, ← hj] at hshown
        cases hshown
      | @named types _ types_of =>
        obtain ⟨⟨source, json, inner⟩, rfl, hjson⟩ :
            ∃ x, types = [x] ∧ .object ms = x.json := by
          obtain ⟨x, rest, rfl, hx, hrest⟩ := List.map_eq_cons_iff.mp (Json.array.inj hj).symm
          exact ⟨x, congrArg (x :: ·) (List.map_eq_nil_iff.mp hrest), hx.symm⟩
        obtain ⟨⟨e', he', hsource⟩, hshown⟩ := types_of _ List.mem_cons_self
        rw [entries, List.mem_singleton] at he'
        dsimp only at hsource hshown hjson
        rw [← hsource, he', hschema, ← hjson] at hshown
        cases hshown with
        | leaf definition => cases definition
        | @record _ pieces shown =>
          obtain ⟨x, hx, rfl⟩ := List.mem_map.mp hf
          refine ⟨⟨.field x.source x.json, fieldNamespace head none⟩, ?_, x.source, x.json, rfl, hp⟩
          simp only [List.flatMap_cons, List.flatMap_nil, List.append_nil]
          exact List.mem_cons_of_mem _ (List.mem_flatMap.mpr ⟨x, hx, List.mem_cons_self⟩)
    · cases h
  · cases h

/-- A field with a default, and an annotation that is called like it. -/
def heldSource : Text := "record R \x7b int @default(\"x\") f = 3; \x7d"

/-- The default of the field is written and not the property. -/
theorem heldSource_exactAt :
    ∃ unit, (root {} [] heldSource ⟨"r.avdl"⟩).result = .ok unit ∧
      ∃ sites, unit.Carries unit.document sites ∧ ∃ x ∈ sites,
        ("default" : Text) ∈ x.node.properties.keys ∧ x.ExactAt "default" ∧
          x.members.get? "default" = some (.integer 3) := by
  have hrun : (root {} [] heldSource ⟨"r.avdl"⟩).result.toOption.any (fun unit =>
      unit.hasField fun f =>
        f.properties.contains "default" && f.default.any (isInteger 3)) = true := by
    decide +kernel
  obtain ⟨unit, hunit, hcheck⟩ := exists_ok_of_any hrun
  obtain ⟨⟨sites, hsites⟩, hexact⟩ := exactAt_iff_of_root hunit List.mem_cons_self
  obtain ⟨x, hx, f, type, hnode, hfield⟩ := hsites.exists_field hcheck
  rw [Bool.and_eq_true, Members.contains_eq_true_iff] at hfield
  obtain ⟨hproperty, hheld⟩ := hfield
  obtain ⟨value, hdefault, hvalue⟩ := (Option.any_eq_true _ _).mp hheld
  rw [eq_integer_of_isInteger hvalue] at hdefault
  have hattribute : x.node.attributes.get? "default" = some (.integer 3) := by
    simp +decide [hnode, Node.attributes, docMember, hdefault]
  have hwritten : x.members.get? "default" = some (.integer 3) := by
    simp +decide [Site.members, hnode, Node.written, fieldMembers, docMember, hdefault,
      Members.get?_merge]
  have hkey : ("default" : Text) ∈ x.node.keys := by
    rw [hnode]
    exact (by decide : ("default" : Text) ∈ fieldKeys)
  refine ⟨unit, hunit, sites, hsites, x, hx, hnode ▸ hproperty, ?_, hwritten⟩
  exact (hexact sites hsites x hx _ hkey).mpr fun hfills =>
    absurd (hattribute.symm.trans hfills.absent) (by simp)

/-- A field without a default, and an annotation that is called like one. -/
def dressedSource : Text := "record R \x7b int @default(\"x\") f; \x7d"

/-- A property takes the place of a default that the field does not have. -/
theorem exists_property_as_default :
    ∃ unit, (root {} [] dressedSource ⟨"r.avdl"⟩).result = .ok unit ∧
      ∃ sites, unit.Carries unit.document sites ∧ ∃ x ∈ sites, ∃ f type, x.node = .field f type ∧
        f.default = none ∧ x.members.get? "default" = some (.string "x") ∧
          ¬x.ExactAt "default" := by
  have hrun : (root {} [] dressedSource ⟨"r.avdl"⟩).result.toOption.any (fun unit =>
      unit.hasField fun f =>
        f.default.isNone && (f.properties.get? "default").any (isString "x")) = true := by
    decide +kernel
  obtain ⟨unit, hunit, hcheck⟩ := exists_ok_of_any hrun
  obtain ⟨sites, hsites⟩ := Root.exists_sites (wellShaped_of_root hunit).lawful
    (sound_of_root hunit).messages (List.mem_cons_self : unit.document ∈ unit.outputs)
  obtain ⟨x, hx, f, type, hnode, hfield⟩ := hsites.exists_field hcheck
  rw [Bool.and_eq_true, Option.isNone_iff_eq_none] at hfield
  obtain ⟨hnone, hproperty⟩ := hfield
  obtain ⟨value, hvalue, hstring⟩ := (Option.any_eq_true _ _).mp hproperty
  rw [eq_string_of_isString hstring] at hvalue
  have hwritten : x.members.get? "default" = some (.string "x") := by
    simp +decide [Site.members, hnode, Node.written, fieldMembers, docMember, hnone,
      aliasMember_eq, Members.get?_merge, hvalue]
  have hattribute : x.node.attributes.get? "default" = none := by
    simp +decide [hnode, Node.attributes, docMember, hnone, aliasMember_eq]
  refine ⟨unit, hunit, sites, hsites, x, hx, f, type, hnode, hnone, hwritten, fun hexact => ?_⟩
  exact absurd (hattribute.symm.trans (hexact _ (Members.mem_of_get? hwritten))) (by simp)

end Compilation

end AvroIdl
