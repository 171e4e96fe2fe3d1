import AvroIdl.Proofs.RoundTrip

/-!
# The fixed keys of a document

Definitions, fields and messages are written as objects in which some keys have a fixed meaning, and
the properties of a node follow at whatever keys they have. No key is written twice. An attribute
that is there keeps its key, so a property can only appear at a fixed key whose attribute is absent.
Of these, the properties of a declaration can be at the keys for which there is no annotation of
their own.
-/
namespace AvroIdl.Document

/-- The fixed keys of definitions for which there are annotations. -/
def definitionMarks : List Text := ["namespace", "aliases"]

/-- The fixed keys of fields for which there are annotations. -/
def fieldMarks : List Text := ["aliases", "order"]

/-- What is written as an object with fixed keys, over what was written for its parts. -/
inductive Node where
  | record (h : Head) (isError : Bool) (fields : List Json)
  | enumeration (h : Head) (symbols : List Text) (default : Option Text)
  | fixed (h : Head) (size : Nat)
  /-- A fixed type with a meaning. -/
  | meaning (k : LogicalKind) (precision scale : Nat) (h : Head) (size : Nat) (n : Note)
  | field (f : Field) (type : Json)
  | message (m : Message) (request : List Json) (response : Json) (errors : Option (List Json))

/-- The attributes that every definition has. -/
def headAttributes (h : Head) : Members :=
  member "name" (.string h.name) ++
    optionalMember "namespace" ((normalizeNamespace h.space).map .string) ++ docMember h.doc ++
    typeAliases h

namespace Node

/-- The fixed keys of its kind. -/
def keys : Node → List Text
  | record _ _ _ => recordKeys
  | enumeration _ _ _ => enumKeys
  | fixed _ _ | meaning _ _ _ _ _ _ => fixedKeys
  | field _ _ => fieldKeys
  | message _ _ _ _ => messageKeys

/-- The attributes that are there, each with its value at its key. -/
def attributes : Node → Members
  | record h isError fields =>
    member "type" (.string (if isError then "error" else "record")) ++ headAttributes h ++
      member "fields" (.array fields)
  | enumeration h symbols default =>
    member "type" (.string "enum") ++ headAttributes h ++ member "symbols" (.ofTexts symbols) ++
      optionalMember "default" (default.map .string)
  | fixed h size | meaning _ _ _ h size _ =>
    member "type" (.string "fixed") ++ headAttributes h ++ member "size" (.integer size)
  | field f type =>
    member "name" (.string f.name) ++ member "type" type ++ docMember f.doc ++
      optionalMember "default" f.default ++ optionalMember "order" (f.order.map (.string ·.text)) ++
      aliasMember f.aliases
  | message m request response errors =>
    docMember m.doc ++ member "request" (.array request) ++ member "response" response ++
      optionalMember "errors" (errors.map .array) ++
      optionalMember "one-way" (if m.isOneWay then some (.bool true) else none)

/-- Its further properties; those of a fixed type come before those of its meaning. -/
def properties : Node → Members
  | record h _ _ | enumeration h _ _ | fixed h _ => h.properties
  | meaning _ _ _ h _ n => h.properties ++ n.properties
  | field f _ => f.properties
  | message m _ _ _ => m.properties

/-- What is written for it without its properties. -/
def bare (enclosing : Option Text) : Node → Members
  | record h isError fields => recordMembers h isError enclosing fields
  | enumeration h symbols default => enumMembers h enclosing symbols default
  | fixed h size => fixedMembers h enclosing size
  | meaning k precision scale h size _ =>
    fixedMembers h enclosing size ++ logicalMembers k precision scale
  | field f type => fieldMembers { f with properties := [] } type
  | message m request response errors =>
    messageMembers { m with properties := [] } request response (errors.getD [])

/-- What is written for it in an enclosing namespace. -/
def written (enclosing : Option Text) : Node → Members
  | record h isError fields => (recordMembers h isError enclosing fields).merge h.properties
  | enumeration h symbols default => (enumMembers h enclosing symbols default).merge h.properties
  | fixed h size => (fixedMembers h enclosing size).merge h.properties
  | meaning k precision scale h size n =>
    ((fixedMembers h enclosing size ++ logicalMembers k precision scale).merge h.properties).merge
      n.properties
  | field f type => fieldMembers f type
  | message m request response errors => messageMembers m request response (errors.getD [])

/-- The fixed keys at which no property of a declaration stands: there are annotations for them, and
a message cannot be declared with an empty list of errors. -/
def taken : Node → List Text
  | record _ _ _ | enumeration _ _ _ | fixed _ _ | meaning _ _ _ _ _ _ => definitionMarks
  | field _ _ => fieldMarks
  | message _ _ _ (some []) => ["errors"]
  | message _ _ _ _ => []

/-- The other fixed keys whose attributes may be absent. -/
def loose : Node → List Text
  | record _ _ _ | fixed _ _ | meaning _ _ _ _ _ _ => ["doc"]
  | enumeration _ _ _ | field _ _ => ["doc", "default"]
  | message _ _ _ _ => ["doc", "errors", "one-way"]

section Distinct

variable (enclosing : Option Text)

theorem keys_member (key : Text) (value : Json) : (member key value).keys.Sublist [key] := .refl _

theorem keys_optionalMember (key : Text) (value : Option Json) :
    (optionalMember key value).keys.Sublist [key] := by
  cases value with
  | none => exact List.nil_sublist _
  | some v => exact .refl _

theorem keys_nameMembers (h : Head) :
    (nameMembers h enclosing).keys.Sublist (["name"] ++ ["namespace"]) := by
  rw [nameMembers, Members.keys_append]
  exact (keys_member _ _).append (keys_optionalMember _ _)

theorem keys_aliasMember (aliases : List Text) :
    (aliasMember aliases).keys.Sublist ["aliases"] := by
  rw [aliasMember_eq]
  exact keys_optionalMember _ _

theorem keys_recordMembers (h : Head) (isError : Bool) (fields : List Json) :
    (recordMembers h isError enclosing fields).keys.Sublist
      (["type"] ++ (["name"] ++ ["namespace"]) ++ ["doc"] ++ ["fields"] ++ ["aliases"]) := by
  simp only [recordMembers, Members.keys_append]
  exact ((((keys_member _ _).append (keys_nameMembers enclosing h)).append
    (keys_optionalMember _ _)).append (keys_member _ _)).append (keys_aliasMember _)

theorem keys_enumMembers (h : Head) (symbols : List Text) (default : Option Text) :
    (enumMembers h enclosing symbols default).keys.Sublist
      (["type"] ++ (["name"] ++ ["namespace"]) ++ ["aliases"] ++ ["doc"] ++ ["symbols"] ++
        ["default"]) := by
  simp only [enumMembers, Members.keys_append]
  exact (((((keys_member _ _).append (keys_nameMembers enclosing h)).append
    (keys_aliasMember _)).append (keys_optionalMember _ _)).append (keys_member _ _)).append
    (keys_optionalMember _ _)

theorem keys_fixedMembers (h : Head) (size : Nat) :
    (fixedMembers h enclosing size).keys.Sublist
      (["type"] ++ (["name"] ++ ["namespace"]) ++ ["doc"] ++ ["size"] ++ ["aliases"]) := by
  simp only [fixedMembers, Members.keys_append]
  exact ((((keys_member _ _).append (keys_nameMembers enclosing h)).append
    (keys_optionalMember _ _)).append (keys_member _ _)).append (keys_aliasMember _)

theorem keys_logicalMembers (k : LogicalKind) (precision scale : Nat) :
    (logicalMembers k precision scale).keys.Sublist
      (["logicalType"] ++ (["precision"] ++ ["scale"])) := by
  rw [logicalMembers, Members.keys_append]
  refine (keys_member _ _).append ?_
  split
  · exact .refl _
  · exact List.nil_sublist _

theorem distinct_fieldMembers (f : Field) (type : Json) : (fieldMembers f type).Distinct := by
  have hkeys : Members.keys
      (member "name" (.string f.name) ++ member "type" type ++ docMember f.doc ++
        optionalMember "default" f.default ++
        optionalMember "order" ((f.order.filter (· != .ascending)).map (.string ·.text)) ++
        aliasMember f.aliases) |>.Sublist
      (["name"] ++ ["type"] ++ ["doc"] ++ ["default"] ++ ["order"] ++ ["aliases"]) := by
    simp only [Members.keys_append]
    exact (((((keys_member _ _).append (keys_member _ _)).append (keys_optionalMember _ _)).append
      (keys_optionalMember _ _)).append (keys_optionalMember _ _)).append (keys_aliasMember _)
  exact Members.Distinct.merge (hkeys.nodup (by decide)) f.properties

theorem distinct_messageMembers (m : Message) (request errors : List Json) (response : Json) :
    (messageMembers m request response errors).Distinct := by
  have hstart : ((docMember m.doc).merge m.properties).Distinct :=
    Members.Distinct.merge ((keys_optionalMember _ _).nodup (List.nodup_singleton _)) _
  have hsent := (hstart.put "request" (.array request)).put "response" response
  unfold messageMembers
  cases m.isOneWay <;> cases errors.isEmpty
  · exact hsent.put _ _
  · exact hsent
  · exact (hsent.put _ _).put _ _
  · exact hsent.put _ _

/-- No key is written twice in a node. -/
theorem distinct_written (n : Node) : (n.written enclosing).Distinct := by
  cases n with
  | record h isError fields =>
    exact Members.Distinct.merge
      ((keys_recordMembers enclosing h isError fields).nodup (by decide)) _
  | enumeration h symbols default =>
    exact Members.Distinct.merge
      ((keys_enumMembers enclosing h symbols default).nodup (by decide)) _
  | fixed h size =>
    exact Members.Distinct.merge ((keys_fixedMembers enclosing h size).nodup (by decide)) _
  | meaning k precision scale h size n =>
    refine Members.Distinct.merge (Members.Distinct.merge ?_ _) _
    rw [Members.Distinct, Members.keys_append]
    exact ((keys_fixedMembers enclosing h size).append
      (keys_logicalMembers k precision scale)).nodup (by decide)
  | field f type => exact distinct_fieldMembers f type
  | message m request response errors => exact distinct_messageMembers m request _ response

end Distinct

section Get

variable (enclosing : Option Text)

/-- What is written for a node itself goes before its properties. -/
theorem get?_written (n : Node) (key : Text) :
    (n.written enclosing).get? key =
      ((n.bare enclosing).get? key).or (n.properties.get? key) := by
  cases n with
  | record h isError fields => exact Members.get?_merge key
  | enumeration h symbols default => exact Members.get?_merge key
  | fixed h size => exact Members.get?_merge key
  | meaning k precision scale h size n =>
    simp only [written, bare, properties, Members.get?_merge, Members.get?_append, Option.or_assoc]
  | field f type =>
    simp only [written, bare, properties, fieldMembers, Members.get?_merge, Members.get?_nil,
      Option.or_none]
  | message m request response errors =>
    -- here the properties come first, and the attributes are put over them
    simp only [written, bare, properties, messageMembers]
    cases m.isOneWay <;> cases (errors.getD []).isEmpty <;>
      simp [Members.get?_put, Members.get?_merge] <;> split_ifs <;> simp

theorem get?_logicalMembers (k : LogicalKind) (precision scale : Nat) {key : Text}
    (hk : key ∈ fixedKeys) : (logicalMembers k precision scale).get? key = none := by
  have hnot : key ≠ "logicalType" ∧ key ≠ "precision" ∧ key ≠ "scale" := by
    refine ⟨?_, ?_, ?_⟩ <;> rintro rfl <;> exact absurd hk (by decide)
  unfold logicalMembers
  split <;> simp [hnot]

/-- The namespace is written as it is or left out. -/
theorem writtenSpace_or (space : Option Text) :
    writtenSpace space enclosing = normalizeNamespace space ∨
      writtenSpace space enclosing = none := by
  unfold writtenSpace
  split <;> simp

theorem get?_fixedMembers (h : Head) (size : Nat) {key : Text} (hk : key ∈ fixedKeys) :
    (fixedMembers h enclosing size).get? key = (fixed h size).attributes.get? key ∨
      (fixedMembers h enclosing size).get? key = none ∧ key ∈ (fixed h size).taken := by
  simp only [fixedKeys, List.mem_cons, List.not_mem_nil, or_false] at hk
  rcases hk with rfl | rfl | rfl | rfl | rfl | rfl
  all_goals simp +decide [attributes, fixedMembers, headAttributes, docMember, get?_nameMembers,
    get?_typeAliases, taken]
  rcases writtenSpace_or enclosing h.space with hs | hs <;> simp [hs]

/-- At a fixed key there is what the attribute says, or nothing at a key that no property takes. -/
theorem get?_bare {n : Node} {key : Text} (hk : key ∈ n.keys) :
    (n.bare enclosing).get? key = n.attributes.get? key ∨
      (n.bare enclosing).get? key = none ∧ key ∈ n.taken := by
  cases n with
  | record h isError fields =>
    simp only [keys, recordKeys, List.mem_cons, List.not_mem_nil, or_false] at hk
    rcases hk with rfl | rfl | rfl | rfl | rfl | rfl
    all_goals simp +decide [bare, attributes, recordMembers, headAttributes, docMember,
      get?_nameMembers, get?_typeAliases, taken]
    rcases writtenSpace_or enclosing h.space with hs | hs <;> simp [hs]
  | enumeration h symbols default =>
    simp only [keys, enumKeys, List.mem_cons, List.not_mem_nil, or_false] at hk
    rcases hk with rfl | rfl | rfl | rfl | rfl | rfl | rfl
    all_goals simp +decide [bare, attributes, enumMembers, headAttributes, docMember,
      get?_nameMembers, get?_typeAliases, taken]
    rcases writtenSpace_or enclosing h.space with hs | hs <;> simp [hs]
  | fixed h size => exact get?_fixedMembers enclosing h size hk
  | meaning k precision scale h size n =>
    rw [bare, Members.get?_append, get?_logicalMembers k precision scale hk, Option.or_none]
    exact get?_fixedMembers enclosing h size hk
  | field f type =>
    simp only [keys, fieldKeys, List.mem_cons, List.not_mem_nil, or_false] at hk
    rcases hk with rfl | rfl | rfl | rfl | rfl | rfl
    all_goals simp +decide [bare, attributes, fieldMembers, docMember, aliasMember_eq, taken,
      Members.get?_merge]
    cases f.order with
    | none => exact .inl rfl
    | some order => cases order <;> simp
  | message m request response errors =>
    simp only [keys, messageKeys, List.mem_cons, List.not_mem_nil, or_false] at hk
    simp only [bare, attributes, messageMembers]
    rcases hk with rfl | rfl | rfl | rfl | rfl
    all_goals
      rcases errors with _ | _ | _ <;> cases m.isOneWay <;>
        simp +decide [docMember, Members.get?_put, Members.get?_merge, taken]

end Get

/-- A fixed key whose attribute is absent can be taken by a property, or there is an annotation for
it. -/
theorem mem_loose_of_absent {n : Node} {key : Text} (hk : key ∈ n.keys)
    (hnone : n.attributes.get? key = none) (hnot : key ∉ n.taken) : key ∈ n.loose := by
  have hfixed : ∀ h size, key ∈ fixedKeys → (fixed h size).attributes.get? key = none →
      key ∉ (fixed h size).taken → key ∈ (fixed h size).loose := by
    intro h size hk hnone hnot
    simp only [fixedKeys, List.mem_cons, List.not_mem_nil, or_false] at hk
    rcases hk with rfl | rfl | rfl | rfl | rfl | rfl
    all_goals simp +decide [attributes, headAttributes, taken, loose] at hnone hnot ⊢
  cases n with
  | record h isError fields =>
    simp only [keys, recordKeys, List.mem_cons, List.not_mem_nil, or_false] at hk
    rcases hk with rfl | rfl | rfl | rfl | rfl | rfl
    all_goals simp +decide [attributes, headAttributes, taken, loose] at hnone hnot ⊢
  | enumeration h symbols default =>
    simp only [keys, enumKeys, List.mem_cons, List.not_mem_nil, or_false] at hk
    rcases hk with rfl | rfl | rfl | rfl | rfl | rfl | rfl
    all_goals simp +decide [attributes, headAttributes, taken, loose] at hnone hnot ⊢
  | fixed h size => exact hfixed h size hk hnone hnot
  | meaning k precision scale h size n => exact hfixed h size hk hnone hnot
  | field f type =>
    simp only [keys, fieldKeys, List.mem_cons, List.not_mem_nil, or_false] at hk
    rcases hk with rfl | rfl | rfl | rfl | rfl | rfl
    all_goals simp +decide [attributes, taken, loose] at hnone hnot ⊢
  | message m request response errors =>
    simp only [keys, messageKeys, List.mem_cons, List.not_mem_nil, or_false] at hk
    rcases hk with rfl | rfl | rfl | rfl | rfl
    all_goals simp +decide [attributes, taken, loose] at hnone hnot ⊢

/-- A property stands at a fixed key whose attribute is absent. -/
structure Fills (n : Node) (key : Text) : Prop where
  loose : key ∈ n.loose
  absent : n.attributes.get? key = none
  property : key ∈ n.properties.keys

end Node

/-- A node at a place in an enclosing namespace. -/
structure Site where
  node : Node
  enclosing : Option Text

namespace Site

def members (x : Site) : Members := x.node.written x.enclosing

/-- If the key is there at all, it shows the attribute that belongs to it. -/
def ExactAt (x : Site) (key : Text) : Prop :=
  ∀ value, (key, value) ∈ x.members → x.node.attributes.get? key = some value

/-- Where no property takes the place of what there are annotations for, a fixed key is exact unless
a property fills it. -/
theorem exactAt_iff {x : Site} (h : x.node.properties.Free x.node.taken) {key : Text}
    (hk : key ∈ x.node.keys) : x.ExactAt key ↔ ¬x.node.Fills key := by
  constructor
  · rintro hexact ⟨hloose, habsent, hproperty⟩
    obtain ⟨value, hvalue⟩ :=
      Option.isSome_iff_exists.mp (Members.contains_eq_true_iff.mpr hproperty)
    have hbare : (x.node.bare x.enclosing).get? key = none :=
      (Node.get?_bare x.enclosing hk).elim (·.trans habsent) (·.1)
    have hwritten : x.members.get? key = some value := by
      rw [members, Node.get?_written, hbare, hvalue, Option.none_or]
    rw [hexact value (Members.mem_of_get? hwritten)] at habsent
    cases habsent
  · intro hopen value hmem
    have hvalue := (Node.distinct_written x.enclosing x.node).get?_of_mem hmem
    rw [Node.get?_written] at hvalue
    -- what a declaration may leave out at such a key is not filled by a property
    by_cases htaken : key ∈ x.node.taken
    · rw [h.get? htaken, Option.or_none] at hvalue
      rcases Node.get?_bare x.enclosing hk with hsame | ⟨hnone, -⟩
      · exact hsame ▸ hvalue
      · cases hnone.symm.trans hvalue
    · rw [(Node.get?_bare x.enclosing hk).resolve_right fun hr => htaken hr.2] at hvalue
      cases hattribute : x.node.attributes.get? key with
      | some v => rwa [hattribute, Option.some_or] at hvalue
      | none =>
        have hproperty : key ∉ x.node.properties.keys := fun hin =>
          hopen ⟨Node.mem_loose_of_absent hk hattribute htaken, hattribute, hin⟩
        rw [hattribute, Option.none_or, Members.get?_eq_none_iff.mpr hproperty] at hvalue
        cases hvalue

end Site

end AvroIdl.Document
