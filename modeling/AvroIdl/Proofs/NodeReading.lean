import AvroIdl.Proofs.ReadForm
import AvroIdl.Proofs.Settling

/-!
# Reading what is written for one type

For every kind of type the members that are written for it are read as that type, once its parts are
read as theirs. What is written for a type is looked at through its keys, so the order of members
plays no part.
-/
namespace AvroIdl.Document

open Schema (logicalKeys)

section Members

variable (key k : Text)

@[simp]
theorem get?_member (value : Json) :
    (member key value).get? k = if k = key then some value else none := by
  simp [member]

@[simp]
theorem get?_optionalMember (value : Option Json) :
    (optionalMember key value).get? k = if k = key then value else none := by
  cases value <;> simp [optionalMember, member]

end Members

theorem aliasMember_eq (aliases : List Text) :
    aliasMember aliases =
      optionalMember "aliases" (if aliases.isEmpty then none else some (.ofTexts aliases)) := by
  unfold aliasMember
  split <;> simp [optionalMember, member]

/-- A definition shows its name, and its namespace, documentation and aliases as far as they are
written. -/
structure Shows (ms : Members) (h : Head) (enclosing : Option Text) : Prop where
  name : ms.get? "name" = some (.string h.name)
  space : ms.get? "namespace" = (writtenSpace h.space enclosing).map .string
  doc : ms.get? "doc" = h.doc.map .string
  aliases : ms.get? "aliases" =
    if (h.aliases.map (shortAlias h.space)).isEmpty then none
    else some (.ofTexts (h.aliases.map (shortAlias h.space)))

theorem optionalString_of_get? {ms : Members} {key : Text} {value : Option Text}
    (h : ms.get? key = value.map .string) (owner : Text) :
    optionalString ms key owner = (value, []) := by
  unfold optionalString
  rw [h]
  cases value <;> rfl

theorem stringArray_of_get? {ms : Members} {key : Text} {texts : List Text}
    (h : ms.get? key = some (.ofTexts texts)) (owner : Text) :
    stringArray ms key owner = .ok texts := by
  unfold stringArray
  simp only [h, Json.ofTexts]
  clear h
  induction texts with
  | nil => rfl
  | cons t texts ih =>
    rw [List.map_cons, List.mapM_cons, ih]
    rfl

theorem stringArray_of_filled {ms : Members} {key : Text} {texts : List Text}
    (h : ms.get? key = if texts.isEmpty then none else some (.ofTexts texts)) (owner : Text) :
    stringArray ms key owner = .ok texts := by
  cases texts with
  | nil =>
    unfold stringArray
    simp only [List.isEmpty_nil, if_true] at h
    rw [h]
  | cons t texts => exact stringArray_of_get? h owner

/-- The head of a definition without the properties. -/
def bareHead (h : Head) : Head :=
  { name := h.name, space := normalizeNamespace h.space, doc := h.doc
    aliases := h.aliases.map (shortAlias h.space) }

theorem readNamed_of_shows {ms : Members} {h : Head} {enclosing : Option Text}
    (hs : Shows ms h enclosing) (hdot : Byte.dot ∉ h.name) (htell : Tellable h.space enclosing)
    (fieldType : Option Text → Json → Outcome Converted) (word : Word) :
    readNamed true fieldType word (normalizeNamespace enclosing) ms =
      let owner : Text := word.text ++ " '" ++ h.name ++ "'"
      let reference : Schema := .reference { name := h.name, space := normalizeNamespace h.space }
      match word with
      | .enum => do return ⟨reference, [← readEnum (bareHead h) owner ms]⟩
      | .fixed => do return ⟨reference, [← readFixed (bareHead h) owner ms]⟩
      | .record | .error =>
        match ms.get? "fields" with
        | none => .error [.missingKey owner "fields"]
        | some fields => do
          let (fields, inner) ← readFields (fieldType (normalizeNamespace h.space)) fields
          let head := { bareHead h with properties := ms.without recordKeys }
          return ⟨reference, .record head (word = .error) fields :: inner⟩ := by
  have hcontains : ms.contains "namespace" = (writtenSpace h.space enclosing).isSome := by
    rw [Members.contains, hs.space, Option.isSome_map]
  have hdefined : definedName h.name
      (if ms.contains "namespace" = true then some (writtenSpace h.space enclosing) else none)
      (normalizeNamespace enclosing) = ⟨h.name, normalizeNamespace h.space⟩ := by
    rw [← definedName_written hdot htell, hcontains]
    cases writtenSpace h.space enclosing <;> rfl
  unfold readNamed
  rw [hs.name]
  dsimp only
  rw [optionalString_of_get? hs.space, optionalString_of_get? hs.doc,
    stringArray_of_filled hs.aliases, hdefined]
  cases word <;> rfl

theorem Shows.congr {ms ms' : Members} {h : Head} {enclosing : Option Text}
    (hs : Shows ms h enclosing)
    (hget : ∀ key ∈ ("name" : Text) :: definitionGaps, ms'.get? key = ms.get? key) :
    Shows ms' h enclosing := by
  refine ⟨?_, ?_, ?_, ?_⟩
  · rw [hget _ (by decide), hs.name]
  · rw [hget _ (by decide), hs.space]
  · rw [hget _ (by decide), hs.doc]
  · rw [hget _ (by decide), hs.aliases]

/-- Further properties do not change what a definition shows unless they fill its gaps. -/
theorem Shows.merge {ms properties : Members} {h : Head} {enclosing : Option Text}
    (hs : Shows ms h enclosing) (hf : properties.Free definitionGaps) :
    Shows (ms.merge properties) h enclosing := by
  refine hs.congr fun key hk => ?_
  rw [Members.get?_merge]
  rcases List.mem_cons.mp hk with rfl | hk
  · rw [hs.name, Option.some_or]
  · rw [hf.get? hk, Option.or_none]

theorem get?_nameMembers (h : Head) (enclosing : Option Text) (k : Text) :
    (nameMembers h enclosing).get? k =
      if k = "name" then some (.string h.name)
      else if k = "namespace" then (writtenSpace h.space enclosing).map .string else none := by
  by_cases hk : k = "name"
  · simp [nameMembers, hk]
  · simp [nameMembers, hk, writtenSpace]

theorem get?_typeAliases (h : Head) (k : Text) :
    (typeAliases h).get? k =
      if k = "aliases" then
        if (h.aliases.map (shortAlias h.space)).isEmpty then none
        else some (.ofTexts (h.aliases.map (shortAlias h.space)))
      else none := by
  rw [typeAliases, aliasMember_eq, get?_optionalMember]

theorem shows_recordMembers (h : Head) (isError : Bool) (enclosing : Option Text)
    (fields : List Json) : Shows (recordMembers h isError enclosing fields) h enclosing := by
  refine ⟨?_, ?_, ?_, ?_⟩ <;>
    simp +decide [recordMembers, docMember, get?_nameMembers, get?_typeAliases]

theorem shows_enumMembers (h : Head) (enclosing : Option Text) (symbols : List Text)
    (default : Option Text) : Shows (enumMembers h enclosing symbols default) h enclosing := by
  refine ⟨?_, ?_, ?_, ?_⟩ <;>
    simp +decide [enumMembers, docMember, get?_nameMembers, get?_typeAliases]

theorem shows_fixedMembers (h : Head) (enclosing : Option Text) (size : Nat) :
    Shows (fixedMembers h enclosing size) h enclosing := by
  refine ⟨?_, ?_, ?_, ?_⟩ <;>
    simp +decide [fixedMembers, docMember, get?_nameMembers, get?_typeAliases]

/-- The keys of members are among the given ones. -/
def Within (ms : Members) (keys : List Text) : Prop := ∀ key ∈ ms.keys, key ∈ keys

theorem within_append {ms others : Members} {keys : List Text} (hm : Within ms keys)
    (ho : Within others keys) : Within (ms ++ others) keys := by
  intro key hk
  rw [Members.keys_append] at hk
  exact (List.mem_append.mp hk).elim (hm key) (ho key)

theorem within_member {key : Text} {keys : List Text} (value : Json) (h : key ∈ keys) :
    Within (member key value) keys := by
  intro k hk
  rw [List.mem_singleton.mp hk]
  exact h

theorem within_optionalMember {key : Text} {keys : List Text} (value : Option Json)
    (h : key ∈ keys) : Within (optionalMember key value) keys := by
  cases value with
  | none =>
    intro k hk
    cases hk
  | some j =>
    intro k hk
    rw [List.mem_singleton.mp hk]
    exact h

theorem within_nameMembers (h : Head) (enclosing : Option Text) {keys : List Text}
    (hname : ("name" : Text) ∈ keys) (hspace : ("namespace" : Text) ∈ keys) :
    Within (nameMembers h enclosing) keys :=
  within_append (within_member _ hname) (within_optionalMember _ hspace)

theorem within_typeAliases (h : Head) {keys : List Text} (hk : ("aliases" : Text) ∈ keys) :
    Within (typeAliases h) keys := by
  rw [typeAliases, aliasMember_eq]
  exact within_optionalMember _ hk

theorem within_recordMembers (h : Head) (isError : Bool) (enclosing : Option Text)
    (fields : List Json) : Within (recordMembers h isError enclosing fields) recordKeys :=
  within_append
    (within_append
      (within_append
        (within_append (within_member _ (by decide))
          (within_nameMembers h enclosing (by decide) (by decide)))
        (within_optionalMember _ (by decide)))
      (within_member _ (by decide)))
    (within_typeAliases h (by decide))

theorem within_enumMembers (h : Head) (enclosing : Option Text) (symbols : List Text)
    (default : Option Text) : Within (enumMembers h enclosing symbols default) enumKeys :=
  within_append
    (within_append
      (within_append
        (within_append
          (within_append (within_member _ (by decide))
            (within_nameMembers h enclosing (by decide) (by decide)))
          (within_typeAliases h (by decide)))
        (within_optionalMember _ (by decide)))
      (within_member _ (by decide)))
    (within_optionalMember _ (by decide))

theorem within_fixedMembers (h : Head) (enclosing : Option Text) (size : Nat) :
    Within (fixedMembers h enclosing size) fixedKeys :=
  within_append
    (within_append
      (within_append
        (within_append (within_member _ (by decide))
          (within_nameMembers h enclosing (by decide) (by decide)))
        (within_optionalMember _ (by decide)))
      (within_member _ (by decide)))
    (within_typeAliases h (by decide))

theorem Word.ofText?_text (w : Word) : Word.ofText? w.text = some w := by
  cases w <;> decide

theorem settlesAt_named (word : Word) {ms : Members} {enclosing : Option Text} {c : Converted}
    (htype : ms.get? "type" = some (.string word.text))
    (h : Settles (fun levels =>
      readNamed true (readSchema true (levels - 1)) word enclosing ms) c) :
    SettlesAt enclosing (.object ms) c := by
  refine h.succ (readSchema_zero ..) fun levels => ?_
  rw [readSchema_object]
  simp only [htype, Word.ofText?_text]

abbrev placeOf (h : Head) : Schema :=
  .reference { name := h.name, space := normalizeNamespace h.space }

theorem settlesAt_record {h : Head} {isError : Bool} {enclosing : Option Text} {js : List Json}
    {ps : List (Field × List Schema)} (hd : h.properties.Distinct)
    (hf : h.properties.Free definitionGaps) (hdot : Byte.dot ∉ h.name)
    (htell : Tellable h.space enclosing)
    (hfields : List.Forall₂ (SettlesField (normalizeNamespace h.space)) js ps)
    (hnames : (ps.map (·.1.name)).Nodup) :
    SettlesAt (normalizeNamespace enclosing)
      (.object ((recordMembers h isError enclosing js).merge h.properties))
      ⟨placeOf h, .record (h.asRead recordKeys) isError (ps.map (·.1)) :: ps.flatMap (·.2)⟩ := by
  have hshows := (shows_recordMembers h isError enclosing js).merge hf
  have hwithout := Members.without_merge hd (within_recordMembers h isError enclosing js)
  have hget : ((recordMembers h isError enclosing js).merge h.properties).get? "fields" =
      some (.array js) := by
    rw [Members.get?_merge]
    simp +decide [recordMembers, docMember, get?_nameMembers]
  have hread := (settles_readFields hfields hnames).pred
  cases isError with
  | false =>
    refine settlesAt_named .record ?_ ?_
    · rw [Members.get?_merge]
      simp [recordMembers, Word.text]
    · simp only [readNamed_of_shows hshows hdot htell, hget, hwithout]
      exact hread.bind (settles_ok _)
  | true =>
    refine settlesAt_named .error ?_ ?_
    · rw [Members.get?_merge]
      simp [recordMembers, Word.text]
    · simp only [readNamed_of_shows hshows hdot htell, hget, hwithout]
      exact hread.bind (settles_ok _)

theorem firstRepeated_eq_none {seen ts : List Text} (h : Unseen id seen ts) :
    firstRepeated seen ts = none := by
  induction ts generalizing seen with
  | nil => rfl
  | cons t ts ih =>
    obtain ⟨hnew, hrest⟩ := h.of_cons
    rw [firstRepeated, if_neg (by simpa using hnew)]
    exact ih hrest

theorem settlesAt_enumeration {h : Head} {symbols : List Text} {d : Option Text}
    {enclosing : Option Text} (hp : (Schema.enumeration h symbols d).Proper)
    (hc : (Schema.enumeration h symbols d).Clear) (hdot : Byte.dot ∉ h.name)
    (htell : Tellable h.space enclosing) :
    SettlesAt (normalizeNamespace enclosing)
      (.object ((enumMembers h enclosing symbols d).merge h.properties))
      ⟨placeOf h, [(Schema.enumeration h symbols d).asRead]⟩ := by
  obtain ⟨hd, hsymbols⟩ := hp
  have hgaps : h.properties.Free definitionGaps := fun key hk => hc key (List.mem_cons_of_mem _ hk)
  have hshows := (shows_enumMembers h enclosing symbols d).merge hgaps
  have hwithout := Members.without_merge hd (within_enumMembers h enclosing symbols d)
  have hget : ((enumMembers h enclosing symbols d).merge h.properties).get? "symbols" =
      some (.ofTexts symbols) := by
    rw [Members.get?_merge]
    simp +decide [enumMembers, docMember, get?_nameMembers, get?_typeAliases]
  have hdefault : ((enumMembers h enclosing symbols d).merge h.properties).get? "default" =
      d.map .string := by
    rw [Members.get?_merge, hc.get? List.mem_cons_self, Option.or_none]
    simp +decide [enumMembers, docMember, get?_nameMembers, get?_typeAliases]
  have hcontains : ((enumMembers h enclosing symbols d).merge h.properties).contains "symbols" =
      true := by
    rw [Members.contains, hget]
    rfl
  have hnone : firstRepeated [] symbols = none :=
    firstRepeated_eq_none ⟨by simpa using hsymbols, by simp⟩
  have hread : ∀ owner, readEnum (bareHead h) owner
      ((enumMembers h enclosing symbols d).merge h.properties) =
        .ok (Schema.enumeration h symbols d).asRead := by
    intro owner
    have hstrings := stringArray_of_get? hget owner
    have hoptional := optionalString_of_get? hdefault owner
    simp only [readEnum, hcontains, Bool.not_true, Bool.false_eq_true, if_false, hstrings,
      hoptional, hwithout, Schema.asRead_enumeration]
    refine Eq.trans (pure_bind symbols _) ?_
    rw [hnone]
    rfl
  refine settlesAt_named .enum ?_ ?_
  · rw [Members.get?_merge]
    simp [enumMembers, Word.text]
  · simp only [readNamed_of_shows hshows hdot htell, hread]
    exact settles_ok _

/-- The properties of a fixed type, read as a type of that size, with the keys of a meaning. -/
theorem settlesAt_fixed {h : Head} {size : Nat} {enclosing : Option Text} {ms : Members}
    (htype : ms.get? "type" = some (.string Word.fixed.text)) (hshows : Shows ms h enclosing)
    (hsize : ms.get? "size" = some (.integer size)) (hbound : size < pow2 32)
    (hdot : Byte.dot ∉ h.name) (htell : Tellable h.space enclosing) :
    SettlesAt (normalizeNamespace enclosing) (.object ms)
      ⟨placeOf h,
        [(Schema.fixed { bareHead h with properties := ms.without fixedKeys } size).promote]⟩ := by
  have hread : ∀ owner, readFixed (bareHead h) owner ms =
      .ok (Schema.fixed { bareHead h with properties := ms.without fixedKeys } size).promote := by
    intro owner
    unfold readFixed
    rw [hsize]
    dsimp only
    rw [if_pos ⟨by omega, by omega⟩]
    rfl
  refine settlesAt_named .fixed htype ?_
  simp only [readNamed_of_shows hshows hdot htell, hread]
  exact settles_ok _

theorem LogicalKind.ofText?_text (k : LogicalKind) : LogicalKind.ofText? k.text = some k := by
  cases k <;> decide

theorem get?_logicalMembers (k : LogicalKind) (precision scale : Nat) (key : Text) :
    (logicalMembers k precision scale).get? key =
      if key = "logicalType" then some (.string k.text)
      else if k = .decimal ∧ key = "precision" then some (.integer precision)
      else if k = .decimal ∧ key = "scale" then some (.integer scale) else none := by
  unfold logicalMembers
  by_cases hk : k = .decimal
  · by_cases h : key = "logicalType"
    · simp [hk, h]
    · by_cases h' : key = "precision" <;> simp +decide [hk, h, h']
  · by_cases h : key = "logicalType" <;> simp [hk, h]

theorem keys_logicalMembers (k : LogicalKind) (precision scale : Nat) :
    (logicalMembers k precision scale).keys = logicalKeys k := by
  cases k <;> rfl

theorem parameter?_of_get? {properties : Members} {key : Text} {n : Nat}
    (h : properties.get? key = some (.integer n)) (hn : n ≤ Decimal.parameterLimit) :
    Decimal.parameter? properties key = some n := by
  unfold Decimal.parameter?
  rw [h]
  dsimp only
  rw [if_pos ⟨by omega, by omega⟩]
  rfl

theorem meaning?_of_logicalMembers {base : Schema} {k : LogicalKind} {precision scale : Nat}
    (hget : ∀ key ∈ logicalKeys k, base.properties.get? key =
      (logicalMembers k precision scale).get? key)
    (ha : k.accepts base.kind = true) (hs : k.Suits base.fixedSize? precision scale) :
    base.meaning? = some (k, precision, scale) := by
  have hname : base.properties.get? "logicalType" = some (.string k.text) := by
    rw [hget _ (by cases k <;> decide), get?_logicalMembers, if_pos rfl]
  have hparameters : Schema.logicalParameters? k base = some (precision, scale) := by
    cases k with
    | decimal =>
      obtain ⟨hone, hlimit, hscale, hsize⟩ := hs
      have hp := parameter?_of_get? (hget "precision" (by decide)) hlimit
      have hsc := parameter?_of_get? (hget "scale" (by decide)) (Nat.le_trans hscale hlimit)
      have hcontains : base.properties.contains "scale" = true := by
        rw [Members.contains, hget "scale" (by decide)]
        rfl
      have hfits : base.fixedSize?.all (fun size => precision ≤ Decimal.maxPrecision size) =
          true := by
        cases hn : base.fixedSize? with
        | none => rfl
        | some size => simpa using hsize size hn
      simp [Schema.logicalParameters?, hp, Decimal.scale?, hcontains, hsc, hone, hscale, hfits]
    | duration =>
      obtain ⟨hsize, rfl, rfl⟩ := hs
      simp [Schema.logicalParameters?, hsize]
    | date | timeMillis | timestampMillis | localTimestampMillis | uuid =>
      obtain ⟨rfl, rfl⟩ := hs
      rfl
  simp [Schema.meaning?, hname, Json.string?, LogicalKind.ofText?_text, ha, hparameters]

theorem settlesAt_plainFixed {h : Head} {size : Nat} {enclosing : Option Text}
    (hp : (Schema.fixed h size).Proper) (hc : (Schema.fixed h size).Clear)
    (hdot : Byte.dot ∉ h.name) (htell : Tellable h.space enclosing) :
    SettlesAt (normalizeNamespace enclosing)
      (.object ((fixedMembers h enclosing size).merge h.properties))
      ⟨placeOf h, [(Schema.fixed h size).asRead]⟩ := by
  obtain ⟨hd, hbound, hmeaning⟩ := hp
  have hwithout := Members.without_merge hd (within_fixedMembers h enclosing size)
  have hsame : Schema.fixed { bareHead h with properties := h.properties.without fixedKeys } size =
      (Schema.fixed h size).asRead := by
    rw [Schema.asRead_fixed]
    rfl
  have hnone : (Schema.fixed { bareHead h with properties := h.properties.without fixedKeys }
      size).meaning? = none := by
    rw [← hmeaning]
    refine Schema.meaning?_congr ?_ rfl rfl
    intro key hkey
    change (h.properties.without fixedKeys).get? key = h.properties.get? key
    rw [Members.get?_without, if_neg]
    revert key
    decide
  have htype : ((fixedMembers h enclosing size).merge h.properties).get? "type" =
      some (.string Word.fixed.text) := by
    rw [Members.get?_merge]
    simp [fixedMembers, Word.text]
  have hsize : ((fixedMembers h enclosing size).merge h.properties).get? "size" =
      some (.integer size) := by
    rw [Members.get?_merge]
    simp +decide [fixedMembers, docMember, get?_nameMembers]
  have hread := settlesAt_fixed htype ((shows_fixedMembers h enclosing size).merge hc) hsize hbound
    hdot htell
  rw [hwithout, Schema.promote_of_meaning?_eq_none hnone, hsame] at hread
  exact hread

/-- Beside the members of a base, those of a logical type come first and then the properties. -/
theorem logical_of_merge {ms base properties : Members} {own : List Text} {k : LogicalKind}
    {precision scale : Nat}
    (hms : (base ++ logicalMembers k precision scale).merge properties = ms)
    (hd : properties.Distinct) (hown : Within base own)
    (hkeys : ∀ key ∈ logicalKeys k, key ∉ own) :
    (∀ key ∈ logicalKeys k,
      (ms.without own).get? key = (logicalMembers k precision scale).get? key) ∧
      (ms.without own).without (logicalKeys k) = properties.without (own ++ logicalKeys k) := by
  refine ⟨?_, ?_⟩
  · intro key hkey
    have hfree : base.get? key = none :=
      Members.get?_eq_none_iff.mpr fun hin => hkeys key hkey (hown key hin)
    have hthere : (logicalMembers k precision scale).contains key = true :=
      Members.contains_eq_true_iff.mpr (keys_logicalMembers k _ _ ▸ hkey)
    obtain ⟨value, hvalue⟩ := Option.isSome_iff_exists.mp hthere
    rw [Members.get?_without, if_neg (hkeys key hkey), ← hms, Members.get?_merge,
      Members.get?_append, hfree, hvalue]
    rfl
  · rw [Members.without_without, ← hms]
    apply Members.without_merge hd
    intro key hkey
    rw [Members.keys_append] at hkey
    rcases List.mem_append.mp hkey with hkey | hkey
    · exact List.mem_append_left _ (hown key hkey)
    · exact List.mem_append_right _ (keys_logicalMembers k _ _ ▸ hkey)

theorem settlesAt_logicalFixed {k : LogicalKind} {precision scale : Nat} {h : Head} {size : Nat}
    {n : Note} {enclosing : Option Text}
    (hp : (Schema.compound (.logical k precision scale) [.fixed h size] n).Proper)
    (hbound : size < pow2 32)
    (hc : (Schema.compound (.logical k precision scale) [.fixed h size] n).Clear)
    (hdot : Byte.dot ∉ h.name) (htell : Tellable h.space enclosing) :
    SettlesAt (normalizeNamespace enclosing)
      (.object (((fixedMembers h enclosing size ++ logicalMembers k precision scale).merge
        h.properties).merge n.properties))
      ⟨placeOf h, [(Schema.compound (.logical k precision scale) [.fixed h size] n).asRead]⟩ := by
  obtain ⟨hd, base, hbase, hnone, ha, hs⟩ := hp
  obtain rfl : Schema.fixed h size = base := by simpa using hbase
  have hempty : h.properties = [] := hnone
  rw [hempty]
  change SettlesAt _ (.object ((fixedMembers h enclosing size ++
    logicalMembers k precision scale).merge n.properties)) _
  generalize hms : (fixedMembers h enclosing size ++ logicalMembers k precision scale).merge
    n.properties = ms
  have htype : ms.get? "type" = some (.string Word.fixed.text) := by
    rw [← hms, Members.get?_merge]
    simp [fixedMembers, Word.text]
  have hsize : ms.get? "size" = some (.integer size) := by
    rw [← hms, Members.get?_merge]
    simp +decide [fixedMembers, docMember, get?_nameMembers]
  have hshows : Shows ms h enclosing := by
    rw [← hms]
    refine Shows.merge ((shows_fixedMembers h enclosing size).congr fun key hkey => ?_) hc
    have hnot : key ∉ logicalKeys k := by
      revert key
      cases k <;> decide
    have hnone : (logicalMembers k precision scale).get? key = none := by
      rw [Members.get?_eq_none_iff, keys_logicalMembers]
      exact hnot
    rw [Members.get?_append, hnone, Option.or_none]
  obtain ⟨hget, hwithout⟩ := logical_of_merge hms hd (within_fixedMembers h enclosing size)
    (by cases k <;> decide)
  have hmeaning : (Schema.fixed { bareHead h with properties := ms.without fixedKeys }
      size).meaning? = some (k, precision, scale) := meaning?_of_logicalMembers hget ha hs
  have hread := settlesAt_fixed htype hshows hsize hbound hdot htell
  rw [Schema.promote_eq, hmeaning] at hread
  have hsame : Schema.logicalOver k precision scale
      ((ms.without fixedKeys).without (logicalKeys k)) (.fixed (bareHead h) size) =
      (Schema.compound (.logical k precision scale) [.fixed h size] n).asRead := by
    rw [hwithout, Schema.asRead_compound (by simp)]
    simp [Schema.logicalOver, Schema.noteAsRead, Schema.ownKeys, Schema.properties, Schema.note,
      Head.asRead, bareHead, hempty, Schema.span, Members.without]
  rw [← hsame]
  exact hread

theorem word_and_container_of_primitive (p : Primitive) :
    Word.ofText? p.text = none ∧ containerOf? p.text = none := by
  cases p <;> decide

theorem settlesAt_primitiveObject {p : Primitive} (enclosing : Option Text) (ms : Members)
    (htype : ms.get? "type" = some (.string p.text)) :
    SettlesAt enclosing (.object ms)
      ⟨(Schema.primitive p { properties := ms.without ["type"] }).promote, []⟩ := by
  obtain ⟨hword, hcontainer⟩ := word_and_container_of_primitive p
  refine (settles_ok _).succ (readSchema_zero ..) fun levels => ?_
  rw [readSchema_object]
  simp only [htype, hword, hcontainer, readName, Primitive.ofText?_text]

theorem settlesAt_primitive {p : Primitive} {n : Note} (enclosing : Option Text)
    (hp : (Schema.primitive p n).Proper) :
    SettlesAt enclosing
      (if n.properties.isEmpty then .string p.text
      else .object ((member "type" (.string p.text)).merge n.properties))
      ⟨(Schema.primitive p n).asRead, []⟩ := by
  obtain ⟨hd, hmeaning⟩ := hp
  have hpromote : (Schema.primitive p { properties := n.properties.without ["type"] }).promote =
      (Schema.primitive p n).asRead := by
    rw [Schema.promote_of_meaning?_eq_none, Schema.asRead_primitive]
    · rfl
    · rw [← hmeaning]
      refine Schema.meaning?_congr ?_ rfl rfl
      intro key hkey
      change (n.properties.without ["type"]).get? key = n.properties.get? key
      rw [Members.get?_without, if_neg]
      revert key
      decide
  by_cases hempty : n.properties = []
  · rw [if_pos (by simp [hempty])]
    have hread : SettlesAt enclosing (.string p.text) ⟨readName enclosing p.text [], []⟩ :=
      settlesAt_string
    have hsame : readName enclosing p.text [] = (Schema.primitive p n).asRead := by
      rw [← hpromote, hempty]
      simp [readName, Members.without]
    rw [hsame] at hread
    exact hread
  · rw [if_neg (by simpa using hempty)]
    have htype : ((member "type" (.string p.text)).merge n.properties).get? "type" =
        some (.string p.text) := by
      rw [Members.get?_merge]
      simp
    have hread := settlesAt_primitiveObject enclosing _ htype
    rw [Members.without_merge hd (within_member _ (by decide)), hpromote] at hread
    exact hread

theorem settlesAt_logicalPrimitive {k : LogicalKind} {precision scale : Nat} {p : Primitive}
    {m n : Note} (enclosing : Option Text)
    (hp : (Schema.compound (.logical k precision scale) [.primitive p m] n).Proper) :
    SettlesAt enclosing
      (.object (((member "type" (.string p.text) ++ logicalMembers k precision scale).merge
        m.properties).merge n.properties))
      ⟨(Schema.compound (.logical k precision scale) [.primitive p m] n).asRead, []⟩ := by
  obtain ⟨hd, base, hbase, hnone, ha, hs⟩ := hp
  obtain rfl : Schema.primitive p m = base := by simpa using hbase
  have hempty : m.properties = [] := hnone
  rw [hempty]
  change SettlesAt _ (.object ((member "type" (.string p.text) ++
    logicalMembers k precision scale).merge n.properties)) _
  generalize hms : (member "type" (.string p.text) ++ logicalMembers k precision scale).merge
    n.properties = ms
  have htype : ms.get? "type" = some (.string p.text) := by
    rw [← hms, Members.get?_merge]
    simp
  have hown : Within (member "type" (.string p.text)) ["type"] := within_member _ (by decide)
  obtain ⟨hget, hwithout⟩ := logical_of_merge hms hd hown (by cases k <;> decide)
  have hmeaning : (Schema.primitive p { properties := ms.without ["type"] }).meaning? =
      some (k, precision, scale) := meaning?_of_logicalMembers hget ha hs
  have hread := settlesAt_primitiveObject enclosing ms htype
  rw [Schema.promote_eq, hmeaning] at hread
  have hsame : Schema.logicalOver k precision scale
      ((ms.without ["type"]).without (logicalKeys k)) (.primitive p {}) =
      (Schema.compound (.logical k precision scale) [.primitive p m] n).asRead := by
    rw [hwithout, Schema.asRead_compound (by simp)]
    simp [Schema.logicalOver, Schema.noteAsRead, Schema.ownKeys, Schema.properties, Schema.note,
      hempty, Schema.span, Members.without]
  rw [← hsame]
  exact hread

theorem settlesAt_container {shape : Shape} {word key : Text} {part : Schema} {n : Note}
    {enclosing : Option Text} {j : Json} {types : List Schema}
    (hshape : containerOf? word = some (shape, key)) (hd : n.properties.Distinct)
    (hpart : SettlesAt enclosing j ⟨part.asRead, types⟩) :
    SettlesAt enclosing
      (.object ((member "type" (.string word) ++ member key j).merge n.properties))
      ⟨(Schema.compound shape [part] n).asRead, types⟩ := by
  have hcontainer := containerOf?_eq_some hshape
  have hword : Word.ofText? word = none := by
    rcases hcontainer with ⟨rfl, -, -⟩ | ⟨rfl, -, -⟩ <;> decide
  have hkey : key ≠ "type" := by
    rcases hcontainer with ⟨-, -, rfl⟩ | ⟨-, -, rfl⟩ <;> decide
  have hsame : (Schema.compound shape [part] n).asRead =
      .compound shape [part.asRead] { properties := n.properties.without ["type", key] } := by
    rcases hcontainer with ⟨-, rfl, rfl⟩ | ⟨-, rfl, rfl⟩ <;>
      simp [Schema.asRead_compound, Schema.noteAsRead, Schema.ownKeys, Schema.properties,
        Schema.note]
  have hwithout : ((member "type" (.string word) ++ member key j).merge n.properties).without
      ["type", key] = n.properties.without ["type", key] :=
    Members.without_merge hd
      (within_append (within_member _ (by simp)) (within_member _ (by simp)))
  have htype : ((member "type" (.string word) ++ member key j).merge n.properties).get? "type" =
      some (.string word) := by
    rw [Members.get?_merge]
    simp
  have hget : ((member "type" (.string word) ++ member key j).merge n.properties).get? key =
      some j := by
    rw [Members.get?_merge]
    simp [hkey]
  have hread : Settles (fun levels => (do
      let inner ← readSchema true levels enclosing j
      return ⟨.compound shape [inner.schema] { properties := n.properties.without ["type", key] },
        inner.types⟩ : Outcome Converted))
      ⟨(Schema.compound shape [part] n).asRead, types⟩ := by
    rw [hsame]
    exact hpart.bind (settles_ok _)
  refine hread.succ (readSchema_zero ..) fun levels => ?_
  rw [readSchema_object]
  simp only [htype, hword, hshape, hget, hwithout]

theorem settlesAt_union {isOptional : Bool} {parts : List Schema} {n : Note}
    {enclosing : Option Text} {js : List Json} {cs : List Converted}
    (hp : (Schema.compound (.union isOptional) parts n).Proper)
    (hread : List.Forall₂ (SettlesAt enclosing) js cs)
    (hparts : cs.map (·.schema) = parts.map Schema.asRead) :
    SettlesAt enclosing (.array js)
      ⟨(Schema.compound (.union isOptional) parts n).asRead, cs.flatMap (·.types)⟩ := by
  obtain ⟨hn, hbranches, hkeys⟩ := hp
  have hunion : ∀ c ∈ cs, c.schema.isUnion = false := by
    intro c hc
    have hmem : c.schema ∈ parts.map Schema.asRead := hparts ▸ List.mem_map_of_mem hc
    obtain ⟨p, hp, he⟩ := List.mem_map.mp hmem
    rw [← he, Schema.isUnion_asRead]
    exact (hbranches p hp).1
  have hunseen : Unseen (fun c : Converted => c.schema.branchKey) [] cs := by
    refine ⟨?_, by simp⟩
    have hmap : cs.map (fun c => c.schema.branchKey) = parts.map Schema.branchKey := by
      have h := congrArg (List.map Schema.branchKey) hparts
      simpa [List.map_map, Function.comp_def] using h
    rw [hmap]
    exact hkeys
  have hnote : (Schema.compound (.union isOptional) parts n).noteAsRead = {} := by
    simp [Schema.noteAsRead, Schema.properties, Schema.note, hn, Members.without]
  rw [Schema.asRead_union, hnote, ← hparts]
  exact settlesAt_array hread hunion hunseen

theorem FieldOrder.ofText?_text (o : FieldOrder) : FieldOrder.ofText? o.text = some o := by
  cases o <;> decide

/-- The members of a field without its further properties. -/
def plainField (f : Field) (type : Json) : Members :=
  member "name" (.string f.name) ++ member "type" type ++ docMember f.doc ++
    optionalMember "default" f.default ++
    optionalMember "order" ((f.order.filter (· != .ascending)).map (.string ·.text)) ++
    aliasMember f.aliases

theorem fieldMembers_eq (f : Field) (type : Json) :
    fieldMembers f type = (plainField f type).merge f.properties := rfl

theorem within_plainField (f : Field) (type : Json) : Within (plainField f type) fieldKeys := by
  rw [plainField, aliasMember_eq]
  exact within_append
    (within_append
      (within_append
        (within_append
          (within_append (within_member _ (by decide)) (within_member _ (by decide)))
          (within_optionalMember _ (by decide)))
        (within_optionalMember _ (by decide)))
      (within_optionalMember _ (by decide)))
    (within_optionalMember _ (by decide))

theorem get?_plainField (f : Field) (type : Json) :
    (plainField f type).get? "name" = some (.string f.name) ∧
      (plainField f type).get? "type" = some type ∧
      (plainField f type).get? "doc" = f.doc.map .string ∧
      (plainField f type).get? "default" = f.default ∧
      (plainField f type).get? "order" =
        (f.order.filter (· != .ascending)).map (.string ·.text) ∧
      (plainField f type).get? "aliases" =
        if f.aliases.isEmpty then none else some (.ofTexts f.aliases) := by
  refine ⟨?_, ?_, ?_, ?_, ?_, ?_⟩ <;> simp +decide [plainField, docMember, aliasMember_eq]

theorem readOrder_of_get? {ms : Members} {order : Option FieldOrder}
    (h : ms.get? "order" = order.map (.string ·.text)) (owner : Text) (problems : List Problem) :
    readOrder ms owner problems = .ok order := by
  have hcontains : ms.contains "order" = order.isSome := by
    rw [Members.contains, h, Option.isSome_map]
  have hstring : ms.get? "order" = (order.map FieldOrder.text).map .string := by
    rw [h, Option.map_map]
    rfl
  unfold readOrder
  rw [hcontains, optionalString_of_get? hstring]
  cases order with
  | none => rfl
  | some o => simp [FieldOrder.ofText?_text]

theorem settlesField {f : Field} {enclosing : Option Text} {j : Json} {types : List Schema}
    (hd : f.properties.Distinct) (hf : f.properties.Free fieldGaps)
    (hread : SettlesAt enclosing j ⟨f.type.asRead, types⟩) :
    SettlesField enclosing (.object (fieldMembers f j)) (f.asRead, types) := by
  obtain ⟨hname, htype, hdoc, hdefault, horder, haliases⟩ := get?_plainField f j
  have hwithout : (fieldMembers f j).without fieldKeys = f.properties.without fieldKeys :=
    Members.without_merge hd (within_plainField f j)
  have hgap : ∀ key ∈ fieldGaps, (fieldMembers f j).get? key = (plainField f j).get? key := by
    intro key hkey
    rw [fieldMembers_eq, Members.get?_merge, hf.get? hkey, Option.or_none]
  have hname' : (fieldMembers f j).get? "name" = some (.string f.name) := by
    rw [fieldMembers_eq, Members.get?_merge, hname, Option.some_or]
  have htype' : (fieldMembers f j).get? "type" = some j := by
    rw [fieldMembers_eq, Members.get?_merge, htype, Option.some_or]
  rw [← hgap _ (by decide)] at hdoc hdefault horder haliases
  refine ⟨fieldMembers f j, rfl, hname', ?_⟩
  simp only [readField, htype', optionalString_of_get? hdoc, readOrder_of_get? horder,
    stringArray_of_filled haliases, hdefault, hwithout]
  exact hread.bind (settles_ok _)

end AvroIdl.Document
