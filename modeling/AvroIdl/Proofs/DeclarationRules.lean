import AvroIdl.Proofs.DocumentSyntax
import AvroIdl.Proofs.UnitInvariants

/-!
# The rules of declarations

A declaration in a source has valid names, an enum defaults to one of its symbols, and a message
without a reply returns and throws nothing. The reader of documents looks for none of this, so a
compiled unit keeps the rules exactly as far as the documents do that it took types and messages
from.
-/
namespace AvroIdl

/-- The names in a record and an enum are valid, and the default of an enum is a symbol. -/
def Schema.Regular : Schema → Prop
  | .record _ _ fields => ∀ f ∈ fields, Name.isValid f.name = true
  | .enumeration _ symbols default =>
    (∀ symbol ∈ symbols, Name.isValid symbol = true) ∧ ∀ symbol ∈ default, symbol ∈ symbols
  | _ => True

instance (s : Schema) : Decidable s.Regular := by
  cases s <;> unfold Schema.Regular <;> infer_instance

/-- The names of a message and its parameters are valid, and without a reply there is no response
and no error. -/
structure Message.Regular (m : Message) : Prop where
  name : Name.isValid m.name = true
  parameters : ∀ f ∈ m.request, Name.isValid f.name = true
  oneWay : m.isOneWay = true → m.response.kind = .primitive .null ∧ m.errors.getD [] = []

instance (m : Message) : Decidable m.Regular :=
  decidable_of_iff
    (Name.isValid m.name = true ∧ (∀ f ∈ m.request, Name.isValid f.name = true) ∧
      (m.isOneWay = true → m.response.kind = .primitive .null ∧ m.errors.getD [] = []))
    ⟨fun ⟨name, parameters, oneWay⟩ => ⟨name, parameters, oneWay⟩,
      fun h => ⟨h.name, h.parameters, h.oneWay⟩⟩

namespace Schema

/-- Only a record and an enum have names inside. -/
theorem regular_of_head?_eq_none {s : Schema} (h : s.head? = none) : s.Regular := by
  cases s <;> trivial

theorem regular_bind_iff (place : Placement) (levels : Nat) (s : Schema) :
    (s.bind place levels).Regular ↔ s.Regular := by
  cases levels with
  | zero => rw [bind_zero]
  | succ levels =>
    cases s with
    | record h e fields => simp [bind_record, Regular]
    | enumeration h symbols default => rw [bind_enumeration]
    | fixed h size => rw [bind_fixed]
    | primitive p n => rw [bind_primitive]
    | compound shape parts n => rw [bind_compound]; rfl
    | reference r => rw [bind_reference]; rfl

end Schema

theorem Message.regular_bindAll_iff (place : Placement) (m : Message) :
    (m.bindAll place).Regular ↔ m.Regular := by
  have hkind : (m.bindAll place).response.kind = m.response.kind := Schema.kind_bind _ _ _
  have hnames : (∀ f ∈ (m.bindAll place).request, Name.isValid f.name = true) ↔
      ∀ f ∈ m.request, Name.isValid f.name = true := by
    simp [Message.bindAll]
  have herrors : (m.bindAll place).errors.getD [] = [] ↔ m.errors.getD [] = [] := by
    cases h : m.errors <;> simp [Message.bindAll, h]
  constructor
  · rintro ⟨name, parameters, oneWay⟩
    exact ⟨name, hnames.mp parameters, fun h => ⟨hkind ▸ (oneWay h).1, herrors.mp (oneWay h).2⟩⟩
  · rintro ⟨name, parameters, oneWay⟩
    exact ⟨name, hnames.mpr parameters, fun h => ⟨hkind ▸ (oneWay h).1, herrors.mpr (oneWay h).2⟩⟩

namespace Build

theorem name_of_fieldOf (c : Context) (owner : Text) (type : TypeNode) (typeDoc : Option Text)
    (d : Declarator) :
    (fieldOf c owner type typeDoc d).Gives fun f => Name.isValid f.name = true := by
  refine .bind (.any _) fun set _ => ?_
  dsimp only
  split
  · exact .fail
  · next hvalid =>
    refine .bind (.any _) fun s _ => .bind (.any _) fun p _ => .pure ?_
    simpa using hvalid

theorem names_of_symbolsOf (c : Context) (enum : Text) (seen : List Text) (is : List Identifier) :
    Yields (symbolsOf c enum seen is) fun symbols => ∀ x ∈ symbols, Name.isValid x = true := by
  induction is generalizing seen with
  | nil => exact .ok (by simp)
  | cons i is ih =>
    rw [symbolsOf]
    split
    · exact .error
    · next hvalid =>
      split
      · exact .error
      · exact .bind (ih _) fun rest hrest =>
          .ok (List.forall_mem_cons.mpr ⟨by simpa using hvalid, hrest⟩)

theorem regular_recordOf (c : Context) (d : RecordDecl) :
    (recordOf c d).Gives Schema.Regular := by
  refine .bind (.any _) fun p _ => ?_
  obtain ⟨q, head⟩ := p
  exact .bind (recordFields_gives_all name_of_fieldOf _ _ [] d.fields) fun fields hfields =>
    .pure hfields

theorem regular_enumOf (c : Context) (d : EnumDecl) : Yields (enumOf c d) Schema.Regular := by
  refine .bind (.any _) fun p _ => ?_
  obtain ⟨q, head⟩ := p
  refine .bind (names_of_symbolsOf c _ [] d.symbols) fun symbols hsymbols => ?_
  split
  · exact .ok ⟨hsymbols, by simp⟩
  · split
    · next hknown => exact .ok ⟨hsymbols, by simpa using hknown⟩
    · exact .error

theorem regular_fixedOf (c : Context) (d : FixedDecl) : Yields (fixedOf c d) Schema.Regular := by
  refine .bind (.any _) fun p _ => ?_
  dsimp only
  split
  · refine .ok ?_
    rw [Schema.promote_eq]
    split <;> trivial
  · exact .error

/-- A message that is well formed by the grammar is regular, if it can be built. -/
theorem regular_messageOf (c : Context) {d : MessageDecl} (h : d.WellFormed) :
    (messageOf c d).Gives Message.Regular := by
  have hresponse : (responseOf c d.name.text d.isOneWay d.result).Gives fun response =>
      d.isOneWay = true → response.kind = .primitive .null := by
    cases d.result with
    | void span => exact .pure fun _ => rfl
    | value type =>
      rw [responseOf]
      split
      · exact .fail
      · next htwoWay => exact fun _ _ _ _ _ hone => absurd hone htwoWay
  refine .bind (.any _) fun set _ => ?_
  dsimp only
  split
  · exact .fail
  · next hvalid =>
    refine .bind hresponse fun response hnull => ?_
    refine .bind (parametersOf_gives_all name_of_fieldOf c _ [] d.parameters) fun request hnames =>
      .pure ?_
    exact ⟨by simpa using hvalid, hnames, fun hone => ⟨hnull hone, by simp [h.oneWay hone]⟩⟩

end Build

/-- What is read without a problem is well formed. -/
theorem SourceUnit.wellFormed_of_ofTokens {tokens : List Token} {docs : List DocComment}
    (h : (ofTokens tokens docs).2 = none) : (ofTokens tokens docs).1.WellFormed := by
  cases tokens with
  | nil => exact ⟨by simp, by simp⟩
  | cons first rest =>
    obtain ⟨-, -, -, -, hu, -⟩ := Reader.spells_sourceUnit
      { docs := docs, previous := first, rest := first :: rest } trivial h
    exact hu

theorem Compilation.wellFormed_of_treeOf {source file : Text} {u : SourceUnit}
    (h : treeOf source file = .ok u) : u.WellFormed := by
  rw [eq_ofTokens_of_treeOf h]
  exact SourceUnit.wellFormed_of_ofTokens (treeOf_eq_ok h).2

theorem SourceUnit.WellFormed.declaration {u : SourceUnit} (h : u.WellFormed) :
    ∀ d ∈ u.declarations, d.WellFormed := by
  obtain ⟨body, orphans⟩ := u
  cases body with
  | protocol p => exact (show p.WellFormed from h).body
  | schemas space main ds => exact fun d hd => (h.2 d hd).1

/-- The messages of a source are well formed. -/
theorem SourceUnit.WellFormed.message {u : SourceUnit} (h : u.WellFormed) {d : MessageDecl}
    (hd : .message d ∈ u.declarations) : d.WellFormed := h.declaration _ hd

/-- A document among the files has the type, apart from the binding of its references. -/
def Schema.ReadFrom (tree : FileTree) (s : Schema) : Prop :=
  ∃ t document, Import.document? tree t = some document ∧
    ∃ read ∈ document.types, ∃ place, s = read.bindAll place

/-- A document among the files has the message, apart from the binding of its references. -/
def Message.ReadFrom (tree : FileTree) (m : Message) : Prop :=
  ∃ t document, Import.document? tree t = some document ∧
    ∃ read ∈ document.messages, ∃ place, m = read.bindAll place

namespace Compilation

open Build

/-- The rules hold of every type that occurs in the unit, at any depth, and of its messages. -/
structure Root.Regular (unit : Root) : Prop where
  types : ∀ s ∈ unit.types, s.Everywhere Schema.Regular
  messages : ∀ m ∈ Root.messages unit.file, m.Regular

/-- What a build takes up is regular, or a document has it. -/
theorem supply_regular (tree : FileTree) :
    Supply tree
      (fun s => s.Regular ∨
        ∃ t document, Import.document? tree t = some document ∧ s ∈ document.types)
      (fun m => m.Regular ∨
        ∃ t document, Import.document? tree t = some document ∧ m ∈ document.messages) where
  record c d := fun w h s w' hs => .inl (regular_recordOf c d w h s w' hs)
  enum c d := fun s hs => .inl (regular_enumOf c d s hs)
  fixed c d := fun s hs => .inl (regular_fixedOf c d s hs)
  message htree _ hd c := fun w h m w' hm =>
    .inl (regular_messageOf c ((wellFormed_of_treeOf htree).message hd) w h m w' hm)
  types h _ hs := .inr ⟨_, _, h, hs⟩
  messages h _ hm := .inr ⟨_, _, h, hm⟩

section Compiled

variable {tree : FileTree} {searchDirectories : List Path} {source : Text} {path : Path}
  {unit : Root}

/-- A type or message of a compiled unit that breaks a rule was read from a document. -/
theorem regular_or_read_of_root (h : (root tree searchDirectories source path).result = .ok unit) :
    (∀ e ∈ unit.registry.entries, e.schema.Regular ∨ e.schema.ReadFrom tree) ∧
      ∀ m ∈ Root.messages unit.file, m.Regular ∨ m.ReadFrom tree := by
  obtain ⟨registry, file, hr, hf, hfinish⟩ := exists_built_of_root (supply_regular tree) h
  obtain ⟨-, -, rfl⟩ := finish_eq_ok hfinish
  constructor
  · intro e he
    obtain ⟨built, hbuilt, rfl⟩ := List.mem_map.mp he
    rcases hr.all built hbuilt with hregular | ⟨t, document, hdocument, hmem⟩
    · exact .inl ((Schema.regular_bind_iff _ _ _).mpr hregular)
    · exact .inr ⟨t, document, hdocument, _, hmem, _, rfl⟩
  · rw [(Root.content_resolved registry file _).1]
    intro m hm
    obtain ⟨built, hbuilt, rfl⟩ := List.mem_map.mp hm
    rcases hf.messages.all built hbuilt with hregular | ⟨t, document, hdocument, hmem⟩
    · exact .inl ((Message.regular_bindAll_iff _ _).mpr hregular)
    · exact .inr ⟨t, document, hdocument, _, hmem, _, rfl⟩

/-- Definitions stand in the registry, so the rules have to be looked for there and in messages. -/
theorem regular_iff_entries (h : (root tree searchDirectories source path).result = .ok unit) :
    unit.Regular ↔ (∀ e ∈ unit.registry.entries, e.schema.Regular) ∧
      ∀ m ∈ Root.messages unit.file, m.Regular := by
  have hsound := sound_of_root h
  constructor
  · rintro ⟨htypes, hmessages⟩
    exact ⟨fun e he => (htypes _ (Root.mem_types_iff.mpr (.inl ⟨e, he, rfl⟩))).self, hmessages⟩
  · rintro ⟨hentries, hmessages⟩
    refine ⟨fun s hs depth t ho => ?_, hmessages⟩
    rcases Root.mem_types_iff.mp hs with ⟨e, he, rfl⟩ | hused
    · cases depth with
      | zero =>
        rw [Schema.occurs_zero_iff.mp ho]
        exact hentries e he
      | succ depth =>
        cases hhead : t.head? with
        | none => exact Schema.regular_of_head?_eq_none hhead
        | some head =>
          obtain ⟨_, _, _, size, _, -, rfl⟩ := hsound.nested e he depth t head ho hhead
          trivial
    · exact Schema.regular_of_head?_eq_none (hsound.used s hused depth t ho)

/-- What a compiled unit has from declarations keeps their rules, and the whole unit does exactly if
those of its types and messages do that were read from documents. -/
theorem regular_iff_of_root (h : (root tree searchDirectories source path).result = .ok unit) :
    (∀ e ∈ unit.registry.entries, ¬e.schema.ReadFrom tree → e.schema.Regular) ∧
      (∀ m ∈ Root.messages unit.file, ¬m.ReadFrom tree → m.Regular) ∧
      (unit.Regular ↔
        (∀ e ∈ unit.registry.entries, e.schema.ReadFrom tree → e.schema.Regular) ∧
          ∀ m ∈ Root.messages unit.file, m.ReadFrom tree → m.Regular) := by
  obtain ⟨htypes, hmessages⟩ := regular_or_read_of_root h
  refine ⟨fun e he => (htypes e he).resolve_right, fun m hm => (hmessages m hm).resolve_right, ?_⟩
  rw [regular_iff_entries h]
  constructor
  · rintro ⟨hentries, hall⟩
    exact ⟨fun e he _ => hentries e he, fun m hm _ => hall m hm⟩
  · rintro ⟨hread, hreadMessages⟩
    exact ⟨fun e he => (htypes e he).elim id (hread e he),
      fun m hm => (hmessages m hm).elim id (hreadMessages m hm)⟩

end Compiled

/-- A protocol document that keeps the rules, beside a schema document with an enum whose default is
none of its symbols. -/
def suitsTree : FileTree :=
  (({} : FileTree).putFile [("deck.avpr" : Text)]
    ("\x7b\"protocol\": \"Deck\", \"types\": [\x7b\"type\": \"enum\", \"name\": \"Suit\", " ++
      "\"symbols\": [\"RED\", \"BLACK\"], \"default\": \"RED\"\x7d], \"messages\": \x7b\"shuffle\": " ++
      "\x7b\"request\": [\x7b\"name\": \"seed\", \"type\": \"int\"\x7d], \"response\": \"null\", " ++
      "\"one-way\": true\x7d\x7d\x7d")).putFile [("e.avsc" : Text)]
    ("\x7b\"type\": \"enum\", \"name\": \"E\", \"symbols\": [\"A\"], \"default\": \"B\"\x7d")

def deckSource : Text :=
  "protocol P \x7b import protocol \"deck.avpr\"; record Card \x7b Suit suit; \x7d \x7d"

/-- A unit with types and messages of a document that keeps the rules. -/
theorem deckSource_regular :
    ∃ unit, (root suitsTree [] deckSource ⟨"p.avdl"⟩).result = .ok unit ∧
      unit.registry.names = ["Suit", "Card"].map Text.ofAscii ∧
      (Root.messages unit.file).map (·.name) = [("shuffle" : Text)] ∧ unit.Regular := by
  have hrun : (root suitsTree [] deckSource ⟨"p.avdl"⟩).result.toOption.any (fun unit =>
      decide (unit.registry.names = ["Suit", "Card"].map Text.ofAscii ∧
        (Root.messages unit.file).map (·.name) = [("shuffle" : Text)] ∧
        (∀ e ∈ unit.registry.entries, e.schema.Regular) ∧
        ∀ m ∈ Root.messages unit.file, m.Regular)) = true := by
    decide +kernel
  obtain ⟨unit, hunit, hcheck⟩ := exists_ok_of_any hrun
  obtain ⟨hnames, hmessages, hentries, hall⟩ := of_decide_eq_true hcheck
  exact ⟨unit, hunit, hnames, hmessages, (regular_iff_of_root hunit).2.2.mpr
    ⟨fun e he _ => hentries e he, fun m hm _ => hall m hm⟩⟩

/-- Whether it is an enum whose default is none of its symbols. -/
def hasStrayDefault : Schema → Bool
  | .enumeration _ symbols (some symbol) => !symbols.contains symbol
  | _ => false

/-- The default of an imported enum need not be one of its symbols. -/
theorem exists_irregular_enum :
    ∃ unit, (root suitsTree [] "import schema \"e.avsc\";" ⟨"p.avdl"⟩).result = .ok unit ∧
      (∃ e ∈ unit.registry.entries, ∃ h symbols symbol,
        e.schema = .enumeration h symbols (some symbol) ∧ symbol ∉ symbols) ∧ ¬unit.Regular := by
  have hrun : (root suitsTree [] "import schema \"e.avsc\";" ⟨"p.avdl"⟩).result.toOption.any
      (fun unit => unit.registry.entries.any fun e => hasStrayDefault e.schema) = true := by
    decide +kernel
  obtain ⟨unit, hunit, hcheck⟩ := exists_ok_of_any hrun
  obtain ⟨e, he, hsymbol⟩ := List.any_eq_true.mp hcheck
  unfold hasStrayDefault at hsymbol
  split at hsymbol
  · next h symbols symbol hschema =>
    have hnot : symbol ∉ symbols := by simpa using hsymbol
    refine ⟨unit, hunit, ⟨e, he, h, symbols, symbol, hschema, hnot⟩, fun hregular => hnot ?_⟩
    have hself := (hregular.types _ (Root.mem_types_iff.mpr (.inl ⟨e, he, rfl⟩))).self
    rw [hschema] at hself
    exact hself.2 symbol rfl
  · cases hsymbol

end Compilation

end AvroIdl
