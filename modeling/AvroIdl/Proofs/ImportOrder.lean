import AvroIdl.Proofs.ImportedMessages

/-!
# The order of imports

What a protocol is delivered depends on its import graph, and the graph does not know in which order
a source imports its files. So the order does not decide which messages a protocol has, as long as
its messages arrive steadily. Where they do not, a file that was met first through a list of types
has been visited, and a later import of the same file by the protocol adds nothing.
-/
namespace AvroIdl

open Import (Target)

/-- The imports of a unit, by kind and location. -/
def SourceUnit.importList (u : SourceUnit) : List (ImportKind × Text) :=
  (u.declarations.filterMap Declaration.import?).map fun d => (d.kind, d.location)

namespace Project

variable {x y : Project}

/-- Two projects whose sources differ in the order of their import declarations. Their messages are
the same, and nothing is said of their types. -/
structure Reordered (x y : Project) : Prop where
  tree : y.tree = x.tree
  searchDirectories : y.searchDirectories = x.searchDirectories
  path : y.path = x.path
  source : ∃ u ∈ x.unit? x.root, ∃ u' ∈ y.unit? y.root,
    u'.importList.Perm u.importList ∧ u'.isProtocol = u.isProtocol ∧
      u'.declarations.filterMap Declaration.messageName? =
        u.declarations.filterMap Declaration.messageName?

/-- Two projects with one import graph and the same messages at its nodes. -/
structure Alike (x y : Project) : Prop where
  root : y.root = x.root
  imports : ∀ p, (y.imports p).Perm (x.imports p)
  protocols : ∀ p, y.IsProtocol p ↔ x.IsProtocol p
  messages : ∀ t, y.messageNames t = x.messageNames t

theorem Alike.symm (h : x.Alike y) : y.Alike x where
  root := h.root.symm
  imports p := (h.imports p).symm
  protocols p := (h.protocols p).symm
  messages t := (h.messages t).symm

section Alike

variable (h : x.Alike y) {t : Target}
include h

theorem Alike.reaches (ht : x.Reaches t) : y.Reaches t := by
  induction ht with
  | root => exact h.root ▸ .root
  | step _ declared ih => exact .step ih ((h.imports _).mem_iff.mpr declared)

theorem Alike.delivered (ht : x.Delivered t) : y.Delivered t := by
  induction ht with
  | root => exact h.root ▸ .root
  | step _ protocol declared ih =>
    exact .step ih ((h.protocols _).mpr protocol) ((h.imports _).mem_iff.mpr declared)

theorem Alike.withheld (ht : x.Withheld t) : y.Withheld t := by
  induction ht with
  | dropped source other declared =>
    exact .dropped (h.reaches source) (mt (h.protocols _).mp other)
      ((h.imports _).mem_iff.mpr declared)
  | inside _ declared ih => exact .inside ih ((h.imports _).mem_iff.mpr declared)

theorem Alike.steady (hx : x.Steady) : y.Steady := by
  intro t hdelivered hmessages
  obtain ⟨hfree, hschema⟩ := hx t (h.symm.delivered hdelivered) (h.messages t ▸ hmessages)
  exact ⟨mt h.symm.withheld hfree, fun hkind => mt h.symm.reaches (hschema hkind)⟩

end Alike

theorem targets_declarations (x : Project) (p : Path) (u : SourceUnit) :
    x.targets p u.declarations =
      u.importList.filterMap fun i => x.target? p { kind := i.1, location := i.2 } := by
  simp only [targets, SourceUnit.importList, List.filterMap_map, List.filterMap_filterMap]
  rfl

section Reordered

variable (h : x.Reordered y)
include h

theorem Reordered.root : y.root = x.root := by
  simp [Project.root, h.tree, h.path]

theorem Reordered.target? (p : Path) : y.target? p = x.target? p := by
  funext d
  simp only [Project.target?, importer, h.tree, h.searchDirectories, h.path, h.root]

theorem Reordered.unit? {p : Path} (hp : p ≠ x.root) : y.unit? p = x.unit? p := by
  simp [Project.unit?, source?, importer, h.tree, h.root, hp]

/-- The order of imports is no part of the import graph. -/
theorem Reordered.alike : x.Alike y := by
  obtain ⟨u, hu, u', hu', himports, hprotocol, hmessages⟩ := h.source
  rw [h.root] at hu'
  refine ⟨h.root, fun p => ?_, fun p => ?_, fun t => ?_⟩
  · by_cases hp : p = x.root
    · subst hp
      rw [imports_of_unit hu, imports_of_unit hu', targets_declarations, targets_declarations,
        h.target?]
      exact himports.filterMap _
    · rw [Project.imports, h.unit? hp, Project.imports]
      simp only [targets, h.target?]
      exact .refl _
  · by_cases hp : p = x.root
    · subst hp
      rw [isProtocol_iff_of_unit hu, isProtocol_iff_of_unit hu', hprotocol]
    · simp only [IsProtocol, h.unit? hp]
  · by_cases hkind : t.kind = .idl
    · by_cases hp : t.path = x.root
      · rw [← hp] at hu hu'
        rw [messageNames_of_unit hkind hu, messageNames_of_unit hkind hu', hprotocol, hmessages]
      · simp only [messageNames, h.unit? hp, if_pos hkind]
    · simp only [messageNames, h.tree, if_neg hkind]

end Reordered

/-- Where messages arrive steadily, a unit has those of the files to which protocols lead, in
whatever order its source imports them; a protocol has the messages of all that it imports. -/
theorem messages_of_compile (ht : x.tree.Placed) (hx : x.Steady) {unit : Compilation.Root}
    (h : (Compilation.root x.tree x.searchDirectories x.source x.path).result = .ok unit) :
    (∀ m, m ∈ messagesOf unit ↔ ∃ t, x.Delivered t ∧ m ∈ x.messageNames t) ∧
    (∀ y : Project, x.Reordered y → ∀ unit',
      (Compilation.root y.tree y.searchDirectories y.source y.path).result = .ok unit' →
        ∀ m, m ∈ messagesOf unit' ↔ m ∈ messagesOf unit) ∧
    (x.IsProtocol x.root → ∀ t ∈ x.imports x.root, x.messageNames t ⊆ messagesOf unit) := by
  refine ⟨mem_messages_iff ht hx h, ?_, ?_⟩
  · intro y hy unit' h' m
    have halike := hy.alike
    rw [mem_messages_iff ht hx h, mem_messages_iff (hy.tree ▸ ht) (halike.steady hx) h']
    constructor
    · rintro ⟨t, hdelivered, hm⟩
      exact ⟨t, halike.symm.delivered hdelivered, halike.messages t ▸ hm⟩
    · rintro ⟨t, hdelivered, hm⟩
      exact ⟨t, halike.delivered hdelivered, (halike.messages t).symm ▸ hm⟩
  · intro hprotocol t himport m hm
    exact (mem_messages_iff ht hx h m).mpr ⟨t, .step .root hprotocol himport, hm⟩

/-- Where all sources that are reached are protocols, nothing is withheld. -/
theorem not_withheld_of_protocols (h : ∀ p, x.Reaches ⟨.idl, p⟩ → x.IsProtocol p) (t : Target) :
    ¬x.Withheld t := by
  intro ht
  induction ht with
  | dropped source other _ => exact other (h _ source)
  | inside _ _ ih => exact ih

/-- A protocol that imports a document both by itself and through another protocol. -/
def relay : Project where
  tree :=
    (({ current := ["w"] } : FileTree).putFile ["w", "q.avdl"]
      "protocol Q \x7b import protocol \"g.avpr\"; void ping(); \x7d").putFile ["w", "g.avpr"]
      ("\x7b\"protocol\": \"G\", \"messages\": \x7b\"hello\": " ++
        "\x7b\"request\": [], \"response\": \"string\"\x7d\x7d\x7d")
  source := "protocol P \x7b import idl \"q.avdl\"; import protocol \"g.avpr\"; \x7d"
  path := ⟨"p.avdl"⟩

/-- The relay with its own import of the document in front. -/
def swappedRelay : Project :=
  { relay with source := "protocol P \x7b import protocol \"g.avpr\"; import idl \"q.avdl\"; \x7d" }

theorem steady_relay : relay.Steady := by
  let closed : List Target :=
    [⟨.idl, relay.root⟩, ⟨.idl, ⟨"/w/q.avdl"⟩⟩, ⟨.protocol, ⟨"/w/g.avpr"⟩⟩]
  have hroot : ⟨.idl, relay.root⟩ ∈ closed := List.mem_cons_self
  have hstep : ∀ t ∈ closed, t.kind = .idl →
      relay.IsProtocol t.path ∧ ∀ t' ∈ relay.imports t.path, t' ∈ closed := by
    decide +kernel
  have hkinds : ∀ t ∈ closed, t.kind ≠ .schema := by decide
  have hclosed {t : Target} (ht : relay.Reaches t) : t ∈ closed :=
    ht.mem_of_closed hroot fun t ht hkind => (hstep t ht hkind).2
  refine fun t _ _ => ⟨not_withheld_of_protocols (fun p hp => ?_) t, fun _ hschema => ?_⟩
  · exact (hstep _ (hclosed hp) rfl).1
  · exact hkinds _ (hclosed hschema) rfl

/-- The relay has the message of the document and that of the other protocol in both orders. -/
theorem messages_of_relay :
    relay.tree.Placed ∧ relay.Steady ∧ relay.Reordered swappedRelay ∧
      ∃ unit unit',
        (Compilation.root relay.tree relay.searchDirectories relay.source relay.path).result =
          .ok unit ∧
        (Compilation.root swappedRelay.tree swappedRelay.searchDirectories swappedRelay.source
          swappedRelay.path).result = .ok unit' ∧
        messagesOf unit = [("hello" : Text), "ping"] ∧
        (∀ m, m ∈ messagesOf unit' ↔ m ∈ messagesOf unit) ∧
        ∃ t, relay.Delivered t ∧ ("ping" : Text) ∈ relay.messageNames t := by
  obtain ⟨hrun, hrun'⟩ :
      (Compilation.root relay.tree relay.searchDirectories relay.source
        relay.path).result.toOption.any
          (fun unit => messagesOf unit == [("hello" : Text), "ping"]) = true ∧
      (Compilation.root swappedRelay.tree swappedRelay.searchDirectories swappedRelay.source
        swappedRelay.path).result.toOption.any (fun _ => true) = true := by
    decide +kernel
  obtain ⟨unit, hunit, hmessages⟩ := exists_ok_of_any hrun
  obtain ⟨unit', hunit', -⟩ := exists_ok_of_any hrun'
  rw [beq_iff_eq] at hmessages
  have hplaced : relay.tree.Placed := by
    unfold FileTree.Placed Path.IsName
    decide +kernel
  have hreordered : relay.Reordered swappedRelay := ⟨rfl, rfl, rfl, by decide +kernel⟩
  obtain ⟨hmem, horder, -⟩ := messages_of_compile hplaced steady_relay hunit
  exact ⟨hplaced, steady_relay, hreordered, unit, unit', hunit, hunit', hmessages,
    horder _ hreordered unit' hunit', (hmem "ping").mp (by rw [hmessages]; decide)⟩

/-- A protocol that imports a document by itself, but first through a list of types. -/
def lossy : Project :=
  { relay with
    tree := relay.tree.putFile ["w", "s.avdl"] "import protocol \"g.avpr\";"
    source := "protocol P \x7b import idl \"s.avdl\"; import protocol \"g.avpr\"; \x7d" }

/-- The same protocol with its own import of the document in front. -/
def swappedLossy : Project :=
  { lossy with source := "protocol P \x7b import protocol \"g.avpr\"; import idl \"s.avdl\"; \x7d" }

/-- Two orders of the imports of a protocol, both of which compile. In one of them a message of a
document that the protocol imports by itself is lost. -/
theorem exists_lost_message :
    ∃ (x y : Project) (unit unit' : Compilation.Root) (m : Text),
      x.tree.Placed ∧ x.Reordered y ∧ x.IsProtocol x.root ∧
      (Compilation.root x.tree x.searchDirectories x.source x.path).result = .ok unit ∧
      (Compilation.root y.tree y.searchDirectories y.source y.path).result = .ok unit' ∧
      (∃ t ∈ x.imports x.root, t.kind = .protocol ∧ m ∈ x.messageNames t) ∧
      m ∉ messagesOf unit ∧ m ∈ messagesOf unit' := by
  obtain ⟨hrun, hrun'⟩ :
      (Compilation.root lossy.tree lossy.searchDirectories lossy.source
        lossy.path).result.toOption.any (fun unit => messagesOf unit == []) = true ∧
      (Compilation.root swappedLossy.tree swappedLossy.searchDirectories swappedLossy.source
        swappedLossy.path).result.toOption.any
          (fun unit => messagesOf unit == [("hello" : Text)]) = true := by
    decide +kernel
  obtain ⟨unit, hunit, hnone⟩ := exists_ok_of_any hrun
  obtain ⟨unit', hunit', hhello⟩ := exists_ok_of_any hrun'
  rw [beq_iff_eq] at hnone hhello
  have hplaced : lossy.tree.Placed := by
    unfold FileTree.Placed Path.IsName
    decide +kernel
  have hreordered : lossy.Reordered swappedLossy := ⟨rfl, rfl, rfl, by decide +kernel⟩
  have hprotocol : lossy.IsProtocol lossy.root ∧ ∃ t ∈ lossy.imports lossy.root,
      t.kind = .protocol ∧ ("hello" : Text) ∈ lossy.messageNames t := by
    decide +kernel
  refine ⟨lossy, swappedLossy, unit, unit', "hello", hplaced, hreordered, hprotocol.1, hunit,
    hunit', hprotocol.2, ?_, ?_⟩
  · rw [hnone]
    exact List.not_mem_nil
  · rw [hhello]
    exact List.mem_cons_self

end Project

end AvroIdl
