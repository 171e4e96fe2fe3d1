import AvroIdl.Proofs.ImportClosure
import AvroIdl.Proofs.ImportErrors

/-!
# Import cycles

A walk keeps the files that it has left free of cycles: whatever has been visited and is not open
imports only such files. So a source that leads to a cycle is never compiled. And what is reported
as a cycle is one.
-/
namespace AvroIdl

open Import (Target)

namespace Project

open Build Relation

variable {x : Project} {p q : Path} {c : Context} {inProtocol : Bool} {ds : List Declaration}
  {session : Session} {loads : List Target} {gain : Stock}

/-- There is no endless path of source imports from a file. -/
def Grounded (x : Project) : Path → Prop := Acc fun q p => x.ImportsSource p q

theorem Grounded.of_reaches (h : x.Grounded p) (hq : ReflTransGen x.ImportsSource p q) :
    x.Grounded q := by
  induction hq with
  | refl => exact h
  | tail _ hstep ih => exact ih.inv hstep

theorem Grounded.acyclic (h : x.Grounded p) : ¬TransGen x.ImportsSource p p := by
  have hacc := acc_transGen_iff.mpr h
  induction hacc with
  | intro p _ ih =>
    intro hcycle
    exact ih p (transGen_swap.mpr hcycle) h hcycle

/-- The files that have been visited and are not open are grounded. -/
def Settled (x : Project) (session : Session) : Prop :=
  ∀ q ∈ session.visited, q ∉ session.stack → x.Grounded q

/-- A walk keeps the files behind it grounded, and what it imports is then behind it. -/
theorem Gathers.grounded (ht : x.tree.Placed)
    (h : x.Gathers p c inProtocol ds session loads gain) (hroot : x.root ∈ session.stack)
    (hs : x.Settled session) :
    x.Settled gain.session ∧ ∀ t ∈ x.targets p ds, x.Grounded t.path := by
  induction h with
  | nil => exact ⟨hs, by simp [targets]⟩
  | type named _ ih =>
    rw [targets_cons_of_typeName? named]
    exact ih hroot hs
  | message _ ih => exact ih hroot hs
  | known leads closed visited rest ih =>
    rw [targets_cons_of_leads leads]
    obtain ⟨hgain, hrest⟩ := ih hroot hs
    refine ⟨hgain, List.forall_mem_cons.mpr ⟨hs _ ?_ ?_, hrest⟩⟩
    · simpa [Session.isVisited, plain_of_target? ht leads] using visited
    · simpa [Session.isInProgress, plain_of_target? ht leads] using closed
  | @document p c inProtocol session d t document ds loads gain leads kind admits content rest ih =>
    have hplain := plain_of_target? ht leads
    have hground : x.Grounded t.path := by
      have hnone :=
        imports_eq_nil_of_document (ne_root_of_closed hplain hroot admits.closed) content
      refine .intro _ fun q hq => ?_
      rw [ImportsSource, hnone] at hq
      cases hq
    have hmarked : x.Settled (session.markVisited t.path) := by
      intro q hq hstack
      rw [Session.visited_markVisited admits.new, hplain] at hq
      rw [Session.stack_markVisited] at hstack
      rcases List.mem_cons.mp hq with rfl | hq
      · exact hground
      · exact hs q hq hstack
    obtain ⟨hgain, hrest⟩ := ih (by simpa using hroot) hmarked
    rw [targets_cons_of_leads leads]
    exact ⟨hgain, List.forall_mem_cons.mpr ⟨hground, hrest⟩⟩
  | @source p c c' inProtocol session d t u ds inside loads inner gain leads kind admits unit
      context within rest ihin ih =>
    have hplain := plain_of_target? ht leads
    -- The opened file is visited, but as it is open nothing is asked of it yet.
    have hopened : x.Settled ((session.markVisited t.path).enter t.path) := by
      intro q hq hstack
      simp only [Session.enter, Session.visited_markVisited admits.new, Session.stack_markVisited,
        hplain, List.mem_cons, List.mem_append, List.not_mem_nil, or_false, not_or] at hq hstack
      exact hs q (hq.resolve_left hstack.2) hstack.1
    obtain ⟨hinner, htargets⟩ := ihin (mem_stack_enter hroot _) hopened
    have hground : x.Grounded t.path := by
      refine .intro _ fun q hq => ?_
      rw [ImportsSource, imports_of_unit unit] at hq
      exact htargets _ hq
    have hstack : inner.session.stack = session.stack ++ [t.path] := by
      rw [within.stack_eq]
      simp [Session.enter, hplain]
    have hleft : x.Settled inner.session.leave := by
      intro q hq hclosed
      rw [within.stack_leave] at hclosed
      by_cases hqt : q = t.path
      · exact hqt ▸ hground
      · exact hinner q hq (by simp [hstack, hclosed, hqt])
    obtain ⟨hgain, hrest⟩ := ih (within.stack_leave ▸ hroot) hleft
    rw [targets_cons_of_leads leads]
    exact ⟨hgain, List.forall_mem_cons.mpr ⟨hground, hrest⟩⟩

/-- The source of a project that is compiled is grounded. -/
theorem grounded_of_root (ht : x.tree.Placed) {unit : Compilation.Root}
    (h : (Compilation.root x.tree x.searchDirectories x.source x.path).result = .ok unit) :
    x.Grounded x.root := by
  obtain ⟨u, c, loads, gain, hu, -, hwalk, -⟩ := exists_walk_of_root ht h
  have hs : x.Settled x.session := by
    intro q hq hstack
    rw [visited_session] at hq
    rw [stack_session] at hstack
    exact absurd hq hstack
  refine .intro _ fun q hq => ?_
  rw [ImportsSource, imports_of_unit hu] at hq
  exact (hwalk.grounded ht (by simp [stack_session]) hs).2 _ hq

/-- What a compilation reports. -/
def reports (x : Project) : List Diagnostic :=
  let compiled := Compilation.compileSource x.tree x.searchDirectories x.source x.path
  compiled.warnings ++
    match compiled.result with
    | .ok _ => []
    | .error ds => ds

/-- A diagnostic is a warning or something that the project complains about. -/
theorem of_mem_reports (ht : x.tree.Placed) {d : Diagnostic} (hd : d ∈ x.reports) :
    d.IsNotice ∨ x.Complains d := by
  obtain ⟨herrors, hwarnings⟩ := complains_of_root ht
  rcases List.mem_append.mp hd with hd | hd
  · exact .inl (hwarnings d hd)
  · refine .inr ?_
    unfold Compilation.compileSource Compilation.map at hd
    cases hresult :
        (Compilation.root x.tree x.searchDirectories x.source x.path).result with
    | ok unit =>
      rw [hresult] at hd
      cases hd
    | error ds =>
      rw [hresult] at hd
      exact herrors ds hresult d hd

/-- If the last of a chain of imports occurs before, it lies on a cycle of imports. -/
theorem Circular.cycle {chain : List Path} (h : x.Circular chain) :
    ∃ p, ReflTransGen x.Imports x.root p ∧ TransGen x.Imports p p := by
  obtain ⟨before, last, rfl, hlast⟩ := h.closes
  obtain ⟨front, inside, rfl⟩ := List.append_of_mem hlast
  have hlinked : (front ++ last :: (inside ++ [last])).IsChain x.Imports := by
    simpa using h.linked
  obtain ⟨hfront, hcycle⟩ := List.isChain_split.mp hlinked
  refine ⟨last, ?_, ?_⟩
  · have hpath := List.relationReflTransGen_of_exists_isChain _ hfront (by simp)
    have hhead : (front ++ [last]).head (by simp) = x.root := by
      have hstarts := h.starts
      cases front <;> simpa using hstarts
    rw [hhead, List.getLast_concat] at hpath
    exact hpath
  · obtain ⟨next, rest, hrest⟩ := List.exists_cons_of_ne_nil (l := inside ++ [last]) (by simp)
    rw [hrest, List.isChain_cons_cons] at hcycle
    refine .head' hcycle.1 (List.relationReflTransGen_of_exists_isChain_cons rest hcycle.2 ?_)
    simp [← hrest]

/-- If a cycle of source imports is reached from the source through source imports, it is not
compiled. What is reported as a cycle is a chain of imports from the source whose last file occurs
before, and it comes with nothing else. So without a cycle none is reported. -/
theorem cycles_of_compile (ht : x.tree.Placed) :
    (∀ p, ReflTransGen x.ImportsSource x.root p → TransGen x.ImportsSource p p →
      ∀ output, (Compilation.compileSource x.tree x.searchDirectories x.source x.path).result ≠
        .ok output) ∧
    (∀ d ∈ x.reports, (∀ r ∈ d.related, r.kind ≠ .importCycle) ∧
      (d.kind = .importCycle → ∃ chain, x.Circular chain ∧
        d.message = "Import cycle: " ++ Text.join " -> " (chain.map Path.text) ++ ".")) ∧
    ((∀ p, ReflTransGen x.Imports x.root p → ¬TransGen x.Imports p p) →
      ∀ d ∈ x.reports, d.kind ≠ .importCycle) := by
  have hnamed : ∀ d ∈ x.reports, d.kind = .importCycle → ∃ chain, x.Circular chain ∧
      d.message = "Import cycle: " ++ Text.join " -> " (chain.map Path.text) ++ "." := by
    intro d hd hkind
    rcases of_mem_reports ht hd with hnotice | herror | ⟨hchain, importer, span⟩
    · exact absurd hkind hnotice.kind_ne
    · exact absurd hkind herror.acyclic
    · exact ⟨_, hchain, rfl⟩
  refine ⟨?_, ?_, ?_⟩
  · intro p hp hcycle output hresult
    obtain ⟨unit, hunit⟩ : ∃ unit,
        (Compilation.root x.tree x.searchDirectories x.source x.path).result = .ok unit := by
      unfold Compilation.compileSource Compilation.map at hresult
      cases hroot : (Compilation.root x.tree x.searchDirectories x.source x.path).result with
      | ok unit => exact ⟨unit, rfl⟩
      | error ds =>
        rw [hroot] at hresult
        cases hresult
    exact ((grounded_of_root ht hunit).of_reaches hp).acyclic hcycle
  · intro d hd
    refine ⟨?_, hnamed d hd⟩
    rcases of_mem_reports ht hd with hnotice | herror | ⟨hchain, importer, span⟩
    · simp [hnotice.related]
    · exact herror.related
    · exact nofun
  · intro hacyclic d hd hkind
    obtain ⟨chain, hchain, -⟩ := hnamed d hd hkind
    obtain ⟨p, hp, hcycle⟩ := hchain.cycle
    exact hacyclic p hp hcycle

/-- Two sources that import each other. -/
def ring : Project where
  tree := (({ current := ["w"] } : FileTree).putFile ["w", "a.avdl"] "import idl \"b.avdl\";").putFile
    ["w", "b.avdl"] "import idl \"a.avdl\";"
  source := "import idl \"b.avdl\";"
  path := ⟨"a.avdl"⟩

/-- The ring is not compiled, and the error names it. -/
theorem cycles_of_ring :
    ring.tree.Placed ∧
      (∀ output, (Compilation.compileSource ring.tree ring.searchDirectories ring.source
        ring.path).result ≠ .ok output) ∧
      ∃ d ∈ ring.reports, d.kind = .importCycle ∧ ∃ chain, ring.Circular chain ∧
        d.message = "Import cycle: " ++ Text.join " -> " (chain.map Path.text) ++ "." := by
  have hplaced : ring.tree.Placed := by
    unfold FileTree.Placed Path.IsName
    decide +kernel
  obtain ⟨hfails, hnamed, -⟩ := cycles_of_compile hplaced
  have hthere : ring.ImportsSource ring.root ⟨"/w/b.avdl"⟩ := by
    unfold ImportsSource
    decide +kernel
  have hback : ring.ImportsSource ⟨"/w/b.avdl"⟩ ring.root := by
    unfold ImportsSource
    decide +kernel
  have hreport : ∃ d ∈ ring.reports, d.kind = .importCycle := by decide +kernel
  obtain ⟨d, hd, hkind⟩ := hreport
  exact ⟨hplaced, hfails ring.root .refl (.head hthere (.single hback)), d, hd, hkind,
    (hnamed d hd).2 hkind⟩

end Project

end AvroIdl
