import AvroIdl.Proofs.CompiledDocument
import AvroIdl.Proofs.DocumentSyntax
import AvroIdl.Proofs.ImportWalk

/-!
# The closure of imports

A walk loads what can be reached, and nothing twice. Files that are imported by one kind only are
the nodes of a graph, and then the types that a compiled unit knows are those that the source and
all that is reached from it declare.
-/
namespace AvroIdl

open Import (Target)

namespace Project

open Build Compilation

variable {x : Project} {p : Path} {c : Context} {inProtocol : Bool} {ds : List Declaration}
  {session : Session} {loads : List Target} {gain : Stock}

/-- A walk ends with the chain with which it began. -/
theorem Gathers.stack_eq (h : x.Gathers p c inProtocol ds session loads gain) :
    gain.session.stack = session.stack := by
  induction h with
  | nil => rfl
  | type _ _ ih => exact ih
  | message _ ih => exact ih
  | known _ _ _ _ ih => exact ih
  | document _ _ _ _ _ ih => simpa using ih
  | source _ _ _ _ _ _ _ ihin ih => simpa [Session.leave, Session.enter, ihin] using ih

/-- The chain is the old one again when an opened file has been left. -/
theorem Gathers.stack_leave {q : Path}
    (h : x.Gathers p c inProtocol ds ((session.markVisited q).enter q) loads gain) :
    gain.session.leave.stack = session.stack := by
  simp [Session.leave, h.stack_eq, Session.enter]

theorem mem_stack_enter {q : Path} (h : q ∈ session.stack) (path : Path) :
    q ∈ ((session.markVisited path).enter path).stack := by
  simp [Session.enter, h]

/-- What is loaded has been visited then, the latest first. -/
theorem Gathers.visited_eq (ht : x.tree.Placed)
    (h : x.Gathers p c inProtocol ds session loads gain) :
    gain.session.visited = (loads.map Target.path).reverse ++ session.visited := by
  induction h with
  | nil => rfl
  | type _ _ ih => exact ih
  | message _ ih => exact ih
  | known _ _ _ _ ih => exact ih
  | document leads _ admits _ _ ih =>
    simp [ih, Session.visited_markVisited admits.new, plain_of_target? ht leads]
  | source leads _ admits _ _ _ _ ihin ih =>
    simp [ih, Session.leave, ihin, Session.enter, Session.visited_markVisited admits.new,
      plain_of_target? ht leads]

theorem nodup_markVisited {s : Session} {q : Path} (hs : s.visited.Nodup) :
    (s.markVisited q).visited.Nodup := by
  unfold Session.markVisited
  split
  · exact hs
  · next hnew =>
    refine List.nodup_cons.mpr ⟨?_, hs⟩
    simpa [Session.isVisited] using hnew

/-- No file is visited twice. -/
theorem Gathers.nodup_visited (h : x.Gathers p c inProtocol ds session loads gain)
    (hs : session.visited.Nodup) : gain.session.visited.Nodup := by
  induction h with
  | nil => exact hs
  | type _ _ ih => exact ih hs
  | message _ ih => exact ih hs
  | known _ _ _ _ ih => exact ih hs
  | document _ _ _ _ _ ih => exact ih (nodup_markVisited hs)
  | source _ _ _ _ _ _ _ ihin ih => exact ih (ihin (nodup_markVisited hs))

/-- Only what is reached is loaded. -/
theorem Gathers.reaches (h : x.Gathers p c inProtocol ds session loads gain)
    (hp : x.Reaches ⟨.idl, p⟩) (hds : x.targets p ds ⊆ x.imports p) :
    ∀ t ∈ loads, x.Reaches t := by
  induction h with
  | nil => simp
  | type named _ ih => exact ih hp (targets_cons_of_typeName? named _ ▸ hds)
  | message _ ih => exact ih hp hds
  | known leads _ _ _ ih =>
    exact ih hp ((targets_cons_subset_iff leads).mp hds).2
  | document leads _ _ _ _ ih =>
    obtain ⟨hfirst, hrest⟩ := (targets_cons_subset_iff leads).mp hds
    exact List.forall_mem_cons.mpr ⟨.step hp hfirst, ih hp hrest⟩
  | @source p c c' inProtocol session d t u ds inside loads inner gain leads kind _ unit _ _ _
      ihin ih =>
    obtain ⟨hfirst, hrest⟩ := (targets_cons_subset_iff leads).mp hds
    have hreached : x.Reaches t := .step hp hfirst
    obtain ⟨kind, path⟩ := t
    cases kind
    have hinside := ihin hreached (targets_subset_imports unit)
    intro t' ht'
    rcases List.mem_append.mp ht' with h' | h'
    · rcases List.mem_cons.mp h' with rfl | h'
      · exact hreached
      · exact hinside t' h'
    · exact ih hp hrest t' h'

/-- What has been visited stays visited. -/
theorem Gathers.subset_visited (ht : x.tree.Placed)
    (h : x.Gathers p c inProtocol ds session loads gain) :
    session.visited ⊆ gain.session.visited := by
  rw [h.visited_eq ht]
  exact fun _ hq => List.mem_append_right _ hq

/-- After a walk all that is imported has been visited. None of it was open. -/
theorem Gathers.visited_of_mem_targets (ht : x.tree.Placed)
    (h : x.Gathers p c inProtocol ds session loads gain) :
    ∀ t ∈ x.targets p ds, t.path ∉ session.stack ∧ t.path ∈ gain.session.visited := by
  have hnot {session : Session} {t : Target} {p : Path} {d : ImportDecl}
      (leads : x.target? p d = some t) (closed : session.isInProgress t.path = false) :
      t.path ∉ session.stack := by
    simpa [Session.isInProgress, plain_of_target? ht leads] using closed
  induction h with
  | nil => simp [targets]
  | type named _ ih =>
    rw [targets_cons_of_typeName? named]
    exact ih
  | message _ ih => exact ih
  | known leads closed visited rest ih =>
    rw [targets_cons_of_leads leads]
    refine List.forall_mem_cons.mpr ⟨⟨hnot leads closed, rest.subset_visited ht ?_⟩, ih⟩
    simpa [Session.isVisited, plain_of_target? ht leads] using visited
  | document leads _ admits _ rest ih =>
    rw [targets_cons_of_leads leads]
    refine List.forall_mem_cons.mpr ⟨⟨hnot leads admits.closed, ?_⟩, ?_⟩
    · refine rest.subset_visited ht ?_
      simp [Session.visited_markVisited admits.new, plain_of_target? ht leads]
    · simpa using ih
  | source leads _ admits _ _ within rest ihin ih =>
    rw [targets_cons_of_leads leads]
    refine List.forall_mem_cons.mpr ⟨⟨hnot leads admits.closed, ?_⟩, ?_⟩
    · refine rest.subset_visited ht (within.subset_visited ht ?_)
      simp [Session.enter, Session.visited_markVisited admits.new, plain_of_target? ht leads]
    · rwa [within.stack_leave] at ih

/-- After a walk all that the loaded files import has been visited. None of it is the source. -/
theorem Gathers.visited_of_mem_imports (ht : x.tree.Placed)
    (h : x.Gathers p c inProtocol ds session loads gain) (hroot : x.root ∈ session.stack) :
    ∀ t ∈ loads, ∀ t' ∈ x.imports t.path, t'.path ≠ x.root ∧ t'.path ∈ gain.session.visited := by
  induction h with
  | nil => simp
  | type _ _ ih => exact ih hroot
  | message _ ih => exact ih hroot
  | known _ _ _ _ ih => exact ih hroot
  | document leads _ admits content _ ih =>
    have hne := ne_root_of_closed (plain_of_target? ht leads) hroot admits.closed
    refine List.forall_mem_cons.mpr ⟨?_, ih (by simpa using hroot)⟩
    rw [imports_eq_nil_of_document hne content]
    exact nofun
  | @source p c c' inProtocol session d t₀ u ds inside loads inner gain leads kind admits unit
      context within rest ihin ih =>
    have hopen := mem_stack_enter hroot
    intro t ht' t' himport
    rcases List.mem_append.mp ht' with h' | h'
    · -- The opened file has walked through its own imports; below it the induction goes on.
      have hinside : t'.path ≠ x.root ∧ t'.path ∈ inner.session.visited := by
        rcases List.mem_cons.mp h' with rfl | h'
        · rw [imports_of_unit unit] at himport
          obtain ⟨hclosed, hvisited⟩ := within.visited_of_mem_targets ht t' himport
          exact ⟨fun heq => hclosed (heq ▸ hopen _), hvisited⟩
        · exact ihin (hopen _) t h' t' himport
      exact ⟨hinside.1, rest.subset_visited ht hinside.2⟩
    · exact ih (within.stack_leave ▸ hroot) t h' t' himport

/-- The types that are gained are those that are declared, and those of the files that are
loaded. -/
theorem Gathers.types_perm (h : x.Gathers p c inProtocol ds session loads gain) :
    gain.types.Perm (ds.filterMap (Declaration.typeName? c) ++ loads.flatMap x.typeNames) := by
  induction h with
  | nil => exact .refl _
  | type named _ ih =>
    rw [List.filterMap_cons_some named]
    exact ih.cons _
  | message _ ih => exact ih
  | known _ _ _ _ ih => exact ih
  | document _ kind _ content _ ih =>
    rw [List.filterMap_cons_none (Declaration.typeName?_file _ _), List.flatMap_cons,
      typeNames_of_document kind content]
    exact (ih.append_left _).trans (List.perm_append_comm_assoc _ _ _)
  | @source p c c' inProtocol session d t u ds inside loads inner gain _ kind _ unit context _ _
      ihin ih =>
    have hsame : (.file d :: ds).filterMap (Declaration.typeName? c) ++
        (t :: inside ++ loads).flatMap x.typeNames =
        ds.filterMap (Declaration.typeName? c) ++
          (u.declarations.filterMap (Declaration.typeName? c') ++ inside.flatMap x.typeNames ++
            loads.flatMap x.typeNames) := by
      simp [List.filterMap_cons, typeNames_of_unit kind unit context]
    rw [hsame]
    exact (ihin.append ih).trans (List.perm_append_comm_assoc _ _ _)

section Root

variable {u : SourceUnit} {unit : Compilation.Root}

/-- Every file is imported by one kind only. -/
def Uniform (x : Project) : Prop :=
  ∀ t t', x.Reaches t → x.Reaches t' → t.path = t'.path → t = t'

theorem visited_session (x : Project) : x.session.visited = [x.root] := by
  simp [session, root, Session.enter, Session.markVisited, Session.isVisited]

theorem stack_session (x : Project) : x.session.stack = [x.root] := by
  simp [session, root, Session.enter]

/-- The source is not loaded again, and no file is loaded twice. -/
theorem Gathers.nodup_loads (ht : x.tree.Placed)
    (h : x.Gathers p c inProtocol ds x.session loads gain) :
    (x.root :: loads.map Target.path).Nodup := by
  have hvisited := h.nodup_visited (by simp [visited_session])
  rw [h.visited_eq ht, visited_session] at hvisited
  rw [← List.nodup_reverse]
  simpa using hvisited

theorem Gathers.reaches_of_root (hu : x.unit? x.root = some u)
    (h : x.Gathers x.root c inProtocol u.declarations x.session loads gain) :
    ∀ t ∈ loads, x.Reaches t :=
  h.reaches .root (targets_subset_imports hu)

/-- Whatever is reached, apart from the source, a file was loaded from its path. -/
theorem Gathers.loaded_of_reaches (ht : x.tree.Placed) (hu : x.unit? x.root = some u)
    (h : x.Gathers x.root c inProtocol u.declarations x.session loads gain) {t : Target}
    (hreached : x.Reaches t) : t = ⟨.idl, x.root⟩ ∨ ∃ t' ∈ loads, t'.path = t.path := by
  have hopen : x.root ∈ x.session.stack := by simp [stack_session]
  induction hreached with
  | root => exact .inl rfl
  | @step p t source declared ih =>
    have hvisited : t.path ≠ x.root ∧ t.path ∈ gain.session.visited := by
      rcases ih with hroot | ⟨t', hload, hpath⟩
      · injection hroot with _ hp
        subst hp
        rw [imports_of_unit hu] at declared
        obtain ⟨hclosed, hvisited⟩ := h.visited_of_mem_targets ht t declared
        exact ⟨fun heq => hclosed (heq ▸ hopen), hvisited⟩
      · exact h.visited_of_mem_imports ht hopen t' hload t (hpath ▸ declared)
    obtain ⟨hne, hvisited⟩ := hvisited
    rw [h.visited_eq ht, visited_session] at hvisited
    exact .inr (by simpa [hne] using hvisited)

/-- A compilation that succeeds walks through the import graph, and loads just the files that are
reached from its source, each of them once. The types of the unit are those that the source and
these files declare, and no two of them have the same name. -/
theorem closure_of_compile (ht : x.tree.Placed) (hx : x.Uniform)
    (h : (Compilation.root x.tree x.searchDirectories x.source x.path).result = .ok unit) :
    ∃ u c loads gain, x.unit? x.root = some u ∧ u.context? x.path.text = some c ∧
      x.Gathers x.root c u.isProtocol u.declarations x.session loads gain ∧
      (x.root :: loads.map Target.path).Nodup ∧
      (∀ t, x.Reaches t ↔ t = ⟨.idl, x.root⟩ ∨ t ∈ loads) ∧
      unit.registry.names.Nodup ∧
      ∀ name, name ∈ unit.registry.names ↔ ∃ t, x.Reaches t ∧ name ∈ x.typeNames t := by
  obtain ⟨u, c, loads, gain, hu, hc, hwalk, hnames, -⟩ := exists_walk_of_root ht h
  -- A visited path tells the file only because no path is imported by two kinds.
  have hloads : ∀ t ∈ loads, x.Reaches t := hwalk.reaches_of_root hu
  have hreaches : ∀ t, x.Reaches t ↔ t = ⟨.idl, x.root⟩ ∨ t ∈ loads := by
    refine fun t => ⟨fun hreached => ?_, ?_⟩
    · refine (hwalk.loaded_of_reaches ht hu hreached).imp_right ?_
      rintro ⟨t', hload, hpath⟩
      exact hx t' t (hloads t' hload) hreached hpath ▸ hload
    · rintro (rfl | hload)
      · exact .root
      · exact hloads t hload
  have hroot : x.typeNames ⟨.idl, x.root⟩ = u.declarations.filterMap (Declaration.typeName? c) :=
    typeNames_of_unit rfl hu (by rw [importer, if_pos rfl]; exact hc)
  refine ⟨u, c, loads, gain, hu, hc, hwalk, hwalk.nodup_loads ht, hreaches, ?_, ?_⟩
  · exact (wellShaped_of_root h).lawful.distinct
  · intro name
    rw [hnames, hwalk.types_perm.mem_iff, List.mem_append, List.mem_flatMap, ← hroot]
    simp only [hreaches, or_and_right, exists_or, exists_eq_left]

end Root

/-- A source that imports two others, which both import a third one. -/
def diamond : Project where
  tree :=
    ((({ current := ["w"] } : FileTree).putFile ["w", "b.avdl"]
      "import idl \"d.avdl\"; record B \x7b D d; \x7d").putFile ["w", "c.avdl"]
      "import idl \"d.avdl\"; record C \x7b D d; \x7d").putFile ["w", "d.avdl"]
      "record D \x7b int n; \x7d"
  source := "import idl \"b.avdl\"; import idl \"c.avdl\"; record A \x7b B b; C c; \x7d"
  path := ⟨"a.avdl"⟩

theorem uniform_diamond : diamond.Uniform := by
  let closed : List Target :=
    [⟨.idl, diamond.root⟩, ⟨.idl, ⟨"/w/b.avdl"⟩⟩, ⟨.idl, ⟨"/w/c.avdl"⟩⟩, ⟨.idl, ⟨"/w/d.avdl"⟩⟩]
  have hroot : ⟨.idl, diamond.root⟩ ∈ closed := List.mem_cons_self
  have hstep : ∀ t ∈ closed, t.kind = .idl → ∀ t' ∈ diamond.imports t.path, t' ∈ closed := by
    decide +kernel
  have hkinds : ∀ t ∈ closed, ∀ t' ∈ closed, t.path = t'.path → t = t' := by decide +kernel
  exact fun t t' h h' => hkinds t (h.mem_of_closed hroot hstep) t' (h'.mem_of_closed hroot hstep)

/-- The type at the bottom of the diamond is registered once, and before those above it. -/
theorem closure_of_diamond :
    diamond.tree.Placed ∧ diamond.Uniform ∧
      ∃ unit, (Compilation.root diamond.tree diamond.searchDirectories diamond.source
          diamond.path).result = .ok unit ∧
        unit.registry.names = [("D" : Text), "B", "C", "A"] ∧
        ∃ t, diamond.Reaches t ∧ ("D" : Text) ∈ diamond.typeNames t := by
  have hrun : (Compilation.root diamond.tree diamond.searchDirectories diamond.source
      diamond.path).result.toOption.any
        (fun unit => unit.registry.names == [("D" : Text), "B", "C", "A"]) = true := by
    decide +kernel
  obtain ⟨unit, hunit, hnames⟩ := exists_ok_of_any hrun
  rw [beq_iff_eq] at hnames
  have hplaced : diamond.tree.Placed := by
    unfold FileTree.Placed Path.IsName
    decide +kernel
  obtain ⟨u, c, loads, gain, -, -, -, -, -, -, hmem⟩ :=
    closure_of_compile hplaced uniform_diamond hunit
  exact ⟨hplaced, uniform_diamond, unit, hunit, hnames, (hmem "D").mp (by rw [hnames]; decide)⟩

end Project

end AvroIdl
