import AvroIdl.Proofs.CompiledDocument
import AvroIdl.Proofs.FileAccess
import AvroIdl.Tool
import Mathlib.Data.List.Dedup

/-!
# The files of named types

The tool writes the schema of every named type to a file that is called after the type's name
without its namespace. Of the types that share such a name, the file holds the one written last.
-/
namespace AvroIdl

namespace Tool

open Compilation (NamedSchema)

/-- The name of the file of a type. -/
def fileName (name : Text) : Text := name ++ ".avsc"

section Target

variable {directory : Path} {name other : Text}

theorem isName_fileName (h : Name.isValid name = true) : Path.IsName (fileName name) := by
  refine ⟨by simp [fileName, Text.ofAscii], fun hmem => ?_⟩
  rcases List.mem_append.mp hmem with hmem | hmem
  · exact absurd (Name.isPart_of_mem h hmem) (by decide)
  · exact absurd hmem (by decide)

theorem fileName_injective : Function.Injective fileName := fun _ _ h => List.append_cancel_right h

/-- The file of a type stands in the directory, whether or not that is written with a slash. -/
theorem exists_written_targetIn (hd : directory.written ≠ []) :
    ∃ before, (∀ b ∈ before, b ∈ directory.written) ∧ ∀ name, Name.isValid name = true →
      (targetIn directory name).written = before ++ Byte.slash :: fileName name := by
  have hempty : directory.isEmpty = false := by simpa [Path.isEmpty] using hd
  have hrooted : ∀ name, Name.isValid name = true →
      (Path.ofText (fileName name)).isRooted = false := by
    intro name hname
    cases name with
    | nil => cases hname
    | cons b name =>
      have hb := Name.isPart_of_mem hname List.mem_cons_self
      simp only [Path.isRooted, Path.ofText, fileName, List.cons_append, List.head?_cons,
        Option.some.injEq, decide_eq_false_iff_not]
      rintro rfl
      cases hb
  have htarget : ∀ name, Name.isValid name = true → (targetIn directory name).written =
      directory.written ++ (if directory.hasName then "/" else "") ++ fileName name := by
    intro name hname
    have hjoin : targetIn directory name = directory.join (Path.ofText (fileName name)) := rfl
    rw [hjoin, Path.join, hrooted name hname, hempty]
    rfl
  by_cases hname : directory.hasName = true
  · refine ⟨directory.written, fun b hb => hb, fun name hvalid => ?_⟩
    rw [htarget name hvalid, if_pos hname]
    simp [Text.ofAscii, Byte.slash]
  · obtain ⟨before, hbefore⟩ := (Path.hasName_or_slash hd).resolve_left hname
    refine ⟨before, fun b hb => hbefore ▸ List.mem_append_left _ hb, fun name hvalid => ?_⟩
    rw [htarget name hvalid, if_neg hname, hbefore]
    simp [Text.ofAscii]

theorem ends_targetIn (hd : directory.written ≠ []) (hz : 0 ∉ directory.written)
    (hname : Name.isValid name = true) : (targetIn directory name).Ends (fileName name) := by
  obtain ⟨before, hsub, hwritten⟩ := exists_written_targetIn hd
  have hlong : 5 < (fileName name).length := by
    have hpos : 0 < name.length := List.length_pos_iff.mpr (by rintro rfl; cases hname)
    simp [fileName, Text.ofAscii]
    omega
  refine ⟨⟨before, hwritten name hname⟩, isName_fileName hname, ⟨?_, ?_⟩, ?_⟩
  · intro h
    rw [h] at hlong
    revert hlong
    decide
  · intro h
    rw [h] at hlong
    revert hlong
    decide
  · rw [hwritten name hname]
    intro hmem
    rcases List.mem_append.mp hmem with hmem | hmem
    · exact hz (hsub 0 hmem)
    · rcases List.mem_cons.mp hmem with hmem | hmem
      · exact absurd hmem (by decide)
      · rcases List.mem_append.mp hmem with hmem | hmem
        · exact absurd (Name.isPart_of_mem hname hmem) (by decide)
        · exact absurd hmem (by decide)

/-- The files of all types have one parent path. -/
theorem parent_targetIn (hd : directory.written ≠ []) (hz : 0 ∉ directory.written)
    (hname : Name.isValid name = true) (hother : Name.isValid other = true) :
    (targetIn directory name).parent = (targetIn directory other).parent := by
  obtain ⟨before, -, hwritten⟩ := exists_written_targetIn hd
  exact (ends_targetIn hd hz hname).parent_congr (ends_targetIn hd hz hother)
    (hwritten name hname) (hwritten other hother)

end Target

section WriteFile

variable {t t' : FileTree} {p : Path} {name contents : Text} {q : Place}

theorem writeTextFile_of_ends (h : p.Ends name) {t₁ : FileTree}
    (hmade : t.createDirectories p.parent = (t₁, none)) :
    writeTextFile t p contents = match t₁.write? p (contents ++ "\n") with
      | some t' => (t', none)
      | none => (t₁, some (.unopened p)) := by
  have hparent : p.parent.isEmpty = false := by simpa [Path.isEmpty] using h.parent_spec.1
  unfold writeTextFile
  rw [hparent, hmade]
  rfl

/-- A file that was written stands in a directory that was there or was made for it. -/
theorem writeTextFile_eq_none (h : p.Ends name) (hw : writeTextFile t p contents = (t', none)) :
    FileTree.Allows p name ∧ ∃ t₁ q, t.createDirectories p.parent = (t₁, none) ∧
      t₁.locate p.parent = .ok (q, .directory) ∧ t₁.node? (q ++ [name]) ≠ some .directory ∧
      t' = t₁.put (q ++ [name]) (.file (contents ++ "\n")) := by
  have hparent : p.parent.isEmpty = false := by simpa [Path.isEmpty] using h.parent_spec.1
  cases hmade : t.createDirectories p.parent with
  | mk t₁ failure =>
    cases failure with
    | some f =>
      simp [writeTextFile, hparent, hmade] at hw
    | none =>
      rw [writeTextFile_of_ends h hmade] at hw
      split at hw
      · next hwritten =>
        cases hw
        obtain ⟨hallows, q, hq⟩ := FileTree.write?_eq_some h hwritten
        exact ⟨hallows, t₁, q, rfl, hq⟩
      · cases hw

end WriteFile

section WriteEach

variable {t t' : FileTree} {directory home : Path} {schemas : List NamedSchema} {q : Place}

/-- The schema that a run from the left leaves at a place, where the files stand below another. -/
def lastAt (q : Place) (schemas : List NamedSchema) (place : Place) : Option NamedSchema :=
  schemas.findRev? fun s => q ++ [fileName s.name] = place

theorem lastAt_cons (s : NamedSchema) (ss : List NamedSchema) (place : Place) :
    lastAt q (s :: ss) place =
      (lastAt q ss place).or (if q ++ [fileName s.name] = place then some s else none) := by
  rw [lastAt, List.findRev?, ← lastAt]
  cases lastAt q ss place with
  | some last => rfl
  | none => simp

/-- Writing schemas to a directory that is there changes the files of their types only, and leaves
in each the last schema that has it. -/
theorem node?_writeEach (hends : ∀ s ∈ schemas, (targetIn directory s.name).Ends (fileName s.name))
    (hhome : ∀ s ∈ schemas, (targetIn directory s.name).parent = home)
    (hopen : t.locate home = .ok (q, .directory))
    (hw : writeEach t directory schemas = (t', none)) :
    t'.locate home = .ok (q, .directory) ∧
      (∀ s ∈ schemas, FileTree.Allows (targetIn directory s.name) (fileName s.name)) ∧
      ∀ place, t'.node? place =
        ((lastAt q schemas place).map fun s => .file (s.json ++ "\n")).or (t.node? place) := by
  induction schemas generalizing t with
  | nil =>
    cases hw
    exact ⟨hopen, by simp, fun place => rfl⟩
  | cons s ss ih =>
    have hs := hends s List.mem_cons_self
    have hmade : t.createDirectories (targetIn directory s.name).parent = (t, none) := by
      rw [hhome s List.mem_cons_self]
      exact FileTree.createDirectories_of_locate hopen
    rw [writeEach] at hw
    split at hw
    · next t₂ hfirst =>
      obtain ⟨hallows, t₁, q₁, ht₁, hq₁, hfree, rfl⟩ := writeTextFile_eq_none hs hfirst
      rw [hmade] at ht₁
      cases ht₁
      rw [hhome s List.mem_cons_self, hopen] at hq₁
      cases hq₁
      obtain ⟨hhere, hrest, hnodes⟩ := ih (fun x hx => hends x (List.mem_cons_of_mem s hx))
        (fun x hx => hhome x (List.mem_cons_of_mem s hx)) (FileTree.locate_put_file hopen hfree) hw
      refine ⟨hhere, List.forall_mem_cons.mpr ⟨hallows, hrest⟩, fun place => ?_⟩
      rw [hnodes place, lastAt_cons]
      cases lastAt q ss place with
      | some last => rfl
      | none =>
        by_cases hplace : q ++ [fileName s.name] = place
        · rw [← hplace, FileTree.node?_put (by simp)]
          simp
        · rw [FileTree.node?_put_of_ne (Ne.symm hplace)]
          simp [hplace]
    · cases hw

/-- The directory is there once the first file was written. -/
theorem exists_home_of_writeEach {s : NamedSchema} {ss : List NamedSchema}
    (h : (targetIn directory s.name).Ends (fileName s.name))
    (hw : writeEach t directory (s :: ss) = (t', none)) :
    ∃ t₁ q, t₁.locate (targetIn directory s.name).parent = .ok (q, .directory) ∧
      writeEach t₁ directory (s :: ss) = (t', none) := by
  rw [writeEach] at hw
  split at hw
  · next t₂ hfirst =>
    obtain ⟨-, t₁, q, hmade, hq, -, -⟩ := writeTextFile_eq_none h hfirst
    refine ⟨t₁, q, hq, ?_⟩
    have hagain : writeTextFile t₁ (targetIn directory s.name) s.json = (t₂, none) := by
      rw [← hfirst, writeTextFile_of_ends h hmade,
        writeTextFile_of_ends h (FileTree.createDirectories_of_locate hq)]
    rw [writeEach, hagain]
    exact hw
  · cases hw

end WriteEach

/-- The places of the files to which schemas were written, each once. -/
def schemaFiles (t : FileTree) (directory : Path) (schemas : List NamedSchema) : List Place :=
  (schemas.filterMap fun s =>
    (t.locate (targetIn directory s.name)).toOption.map fun found => found.1).dedup

section WriteSchemata

variable {disk after : FileTree} {directory : Path} {schemas : List NamedSchema}

theorem exists_last_of_mem {s : NamedSchema} (hs : s ∈ schemas) :
    ∃ last ∈ schemas, last.name = s.name ∧
      (schemas.findRev? fun x => x.name = s.name) = some last := by
  rw [List.findRev?_eq_find?_reverse]
  cases hlast : schemas.reverse.find? fun x => decide (x.name = s.name) with
  | none =>
    have hnone := List.find?_eq_none.mp hlast s (List.mem_reverse.mpr hs)
    simp at hnone
  | some last =>
    have hname := List.find?_some hlast
    exact ⟨last, List.mem_reverse.mp (List.mem_of_find?_eq_some hlast), by simpa using hname, rfl⟩

/-- After a run without a problem the file of every type is there and holds the last schema of the
types of its name. -/
theorem exists_files_of_writeSchemata (hz : 0 ∉ directory.written)
    (hnames : ∀ s ∈ schemas, Name.isValid s.name = true)
    (hw : writeSchemata disk directory schemas = (after, none)) :
    ∃ q, ∀ s ∈ schemas, after.locate (targetIn directory s.name) = .ok (q ++ [fileName s.name],
      .file (((schemas.findRev? fun x => x.name = s.name).map (·.json)).getD [] ++ "\n")) := by
  cases schemas with
  | nil => exact ⟨[], by simp⟩
  | cons first rest =>
    have hd : directory.written ≠ [] := by
      intro hempty
      have hdirectory : directory = ⟨[]⟩ := congrArg Path.mk hempty
      rw [hdirectory] at hw
      cases hw
    have hends : ∀ s ∈ first :: rest, (targetIn directory s.name).Ends (fileName s.name) :=
      fun s hs => ends_targetIn hd hz (hnames s hs)
    have hhome : ∀ s ∈ first :: rest,
        (targetIn directory s.name).parent = (targetIn directory first.name).parent :=
      fun s hs => parent_targetIn hd hz (hnames s hs) (hnames first List.mem_cons_self)
    rw [writeSchemata] at hw
    split at hw
    · cases hw
    · obtain ⟨t, q, hopen, hw⟩ := exists_home_of_writeEach (hends first List.mem_cons_self) hw
      obtain ⟨hafter, hallows, hnodes⟩ := node?_writeEach hends hhome hopen hw
      refine ⟨q, fun s hs => ?_⟩
      obtain ⟨last, -, -, hlast⟩ := exists_last_of_mem hs
      have hplace : lastAt q (first :: rest) (q ++ [fileName s.name]) = some last := by
        rw [← hlast, lastAt]
        simp [fileName_injective.eq_iff]
      have hnode := hnodes (q ++ [fileName s.name])
      rw [hplace] at hnode
      rw [hlast]
      exact FileTree.locate_of_node? (hends s hs) (hallows s hs) ((hhome s hs).symm ▸ hafter) hnode

/-- Every schema keeps its file, and every schema has a file of its own, exactly if no two types
have one name. -/
theorem keeps_iff_of_writeSchemata (hz : 0 ∉ directory.written)
    (hnames : ∀ s ∈ schemas, Name.isValid s.name = true)
    (hw : writeSchemata disk directory schemas = (after, none)) :
    ((∀ s ∈ schemas, after.read? (targetIn directory s.name) = some (s.json ++ "\n")) ∧
        (schemaFiles after directory schemas).length = schemas.length) ↔
      (schemas.map (·.name)).Nodup := by
  obtain ⟨q, hfiles⟩ := exists_files_of_writeSchemata hz hnames hw
  have hplaces : schemaFiles after directory schemas =
      ((schemas.map (·.name)).map fun n => q ++ [fileName n]).dedup := by
    rw [schemaFiles, List.map_map, ← List.filterMap_eq_map]
    congr 1
    refine List.filterMap_congr fun s hs => ?_
    rw [hfiles s hs]
    rfl
  have hinjective : Function.Injective fun n => q ++ [fileName n] := by
    intro a b hab
    simpa [fileName_injective.eq_iff] using hab
  constructor
  · rintro ⟨-, hcount⟩
    have hlength : (schemas.map (·.name)).length = schemas.length := List.length_map _
    rw [hplaces, ← hlength, ← List.length_map (fun n => q ++ [fileName n])] at hcount
    have hsame := (List.dedup_sublist _).eq_of_length hcount
    exact (List.nodup_map_iff hinjective).mp (List.dedup_eq_self.mp hsame)
  · intro hnodup
    refine ⟨fun s hs => ?_, ?_⟩
    · obtain ⟨last, hmem, hname, hlast⟩ := exists_last_of_mem hs
      have hself : last = s := List.inj_on_of_nodup_map hnodup hmem hs hname
      rw [FileTree.read?, hfiles s hs, hlast, hself]
      rfl
    · rw [hplaces, ((List.nodup_map_iff hinjective).mpr hnodup).dedup]
      simp

end WriteSchemata

end Tool

namespace Compilation

variable {tree : FileTree} {searchDirectories : List Path} {source : Text} {path : Path}

theorem isValid_name_of_compileNamed {schemas : List NamedSchema}
    (h : (compileNamed tree searchDirectories source path).result = .ok schemas) :
    ∀ s ∈ schemas, Name.isValid s.name = true := by
  obtain ⟨unit, hunit, rfl⟩ : ∃ unit, (root tree searchDirectories source path).result = .ok unit ∧
      unit.namedSchemas = schemas := by
    change (root tree searchDirectories source path).result.map Root.namedSchemas = .ok schemas at h
    cases hr : (root tree searchDirectories source path).result with
    | error ds =>
      rw [hr] at h
      cases h
    | ok unit =>
      rw [hr] at h
      exact ⟨unit, rfl, Except.ok.inj h⟩
  intro s hs
  obtain ⟨e, he, rfl⟩ := List.mem_map.mp hs
  have hlegal := (wellShaped_of_root hunit).lawful.legal e he
  rw [Registry.isLegalName, Bool.and_eq_true] at hlegal
  exact hlegal.1

/-- When a compiled unit was written, every named type has its schema in a file of its own exactly
if no two types have the same name in different namespaces. -/
theorem keeps_files_iff_of_compileNamed {schemas : List NamedSchema} {disk after : FileTree}
    {directory : Path}
    (h : (compileNamed tree searchDirectories source path).result = .ok schemas)
    (hz : 0 ∉ directory.written)
    (hw : Tool.writeSchemata disk directory schemas = (after, none)) :
    ((∀ s ∈ schemas, after.read? (Tool.targetIn directory s.name) = some (s.json ++ "\n")) ∧
        (Tool.schemaFiles after directory schemas).length = schemas.length) ↔
      (schemas.map (·.name)).Nodup :=
  Tool.keeps_iff_of_writeSchemata hz (isValid_name_of_compileNamed h) hw

def shapesSource : Text :=
  "@namespace(\"geo\") record Point \x7b int x; \x7d @namespace(\"ink\") enum Color \x7b RED \x7d"

theorem shapesSource_keeps_files :
    ∃ schemas after, (compileNamed {} [] shapesSource ⟨"shapes.avdl"⟩).result = .ok schemas ∧
      schemas.map (·.name) = ["Point", "Color"].map Text.ofAscii ∧
      Tool.writeSchemata {} ⟨"out"⟩ schemas = (after, none) ∧
      (∀ s ∈ schemas, after.read? (Tool.targetIn ⟨"out"⟩ s.name) = some (s.json ++ "\n")) ∧
      (Tool.schemaFiles after ⟨"out"⟩ schemas).length = schemas.length := by
  have hrun : (compileNamed {} [] shapesSource ⟨"shapes.avdl"⟩).result.toOption.any (fun schemas =>
      schemas.map (·.name) == ["Point", "Color"].map Text.ofAscii &&
        (Tool.writeSchemata {} ⟨"out"⟩ schemas).2 == none) = true := by
    decide +kernel
  obtain ⟨schemas, hschemas, hcheck⟩ := exists_ok_of_any hrun
  obtain ⟨hnames, hwritten⟩ := Bool.and_eq_true_iff.mp hcheck
  rw [beq_iff_eq] at hnames hwritten
  have hafter : Tool.writeSchemata {} ⟨"out"⟩ schemas =
      ((Tool.writeSchemata {} ⟨"out"⟩ schemas).1, none) := Prod.ext rfl hwritten
  have hnodup : (schemas.map (·.name)).Nodup := by
    rw [hnames]
    decide
  exact ⟨schemas, _, hschemas, hnames, hafter,
    (keeps_files_iff_of_compileNamed hschemas (by decide) hafter).mpr hnodup⟩

/-- Two types of one name in different namespaces. -/
def namesakesSource : Text :=
  "@namespace(\"a\") record X \x7b \x7d @namespace(\"b\") record X \x7b \x7d"

/-- The second of two namesakes takes the file of the first, although every write succeeds. -/
theorem exists_overwritten_schema :
    ∃ schemas after, (compileNamed {} [] namesakesSource ⟨"x.avdl"⟩).result = .ok schemas ∧
      Tool.writeSchemata {} ⟨"out"⟩ schemas = (after, none) ∧
      (∃ s ∈ schemas, after.read? (Tool.targetIn ⟨"out"⟩ s.name) ≠ some (s.json ++ "\n")) ∧
      (Tool.schemaFiles after ⟨"out"⟩ schemas).length < schemas.length := by
  have hrun : (compileNamed {} [] namesakesSource ⟨"x.avdl"⟩).result.toOption.any (fun schemas =>
      let run := Tool.writeSchemata {} ⟨"out"⟩ schemas
      run.2 == none && decide
        ((∃ s ∈ schemas, run.1.read? (Tool.targetIn ⟨"out"⟩ s.name) ≠ some (s.json ++ "\n")) ∧
          (Tool.schemaFiles run.1 ⟨"out"⟩ schemas).length < schemas.length)) = true := by
    decide +kernel
  obtain ⟨schemas, hschemas, hcheck⟩ := exists_ok_of_any hrun
  obtain ⟨hwritten, hlost⟩ := Bool.and_eq_true_iff.mp hcheck
  exact ⟨schemas, _, hschemas, Prod.ext rfl (beq_iff_eq.mp hwritten), of_decide_eq_true hlost⟩

end Compilation

end AvroIdl
