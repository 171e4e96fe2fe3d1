import AvroIdl.CommandLine

/-!
# Naming an import directory

An import directory is named by two arguments, or by one in which an equals sign joins them.
Wherever the reading of the arguments comes to either of them, both mean the same for every
directory with a name. Without a name the joined form is refused, and the other one names the empty
path.
-/
namespace AvroIdl.CommandLine

/-- The option and its directory as two arguments. -/
def separate (directory : Text) : List Text := ["--import-dir", directory]

/-- The option and its directory as one argument. -/
def joined (directory : Text) : List Text := ["--import-dir=" ++ directory]

/-- Arguments of which the last is not an option that still asks for its directory, so that the next
argument is read on its own. -/
inductive Whole : List Text → Prop
  | nil : Whole []
  | directory (directory : Text) {rest : List Text} (more : Whole rest) :
      Whole ("--import-dir" :: directory :: rest)
  | argument {a : Text} {rest : List Text} (other : a ≠ "--import-dir") (more : Whole rest) :
      Whole (a :: rest)

/-- The reading ends before it comes to what follows the arguments, whatever that is. -/
def Ends (before : List Text) : Prop := ∃ outcome, ∀ rest, parse (before ++ rest) = outcome

/-- The same options, or failure in both. -/
def Agree (x y : Except UsageError Options) : Prop := x.toOption = y.toOption

/-! ### One argument -/

def Options.addDirectory (o : Options) (directory : Text) : Options :=
  { o with importDirectories := o.importDirectories ++ [directory] }

theorem readFrom_separate (o : Options) (positional : List Text) (directory : Text)
    (rest : List Text) :
    readFrom o positional (separate directory ++ rest) =
      readFrom (o.addDirectory directory) positional rest := by
  have hjoined : Text.dropStart "--import-dir=" "--import-dir" = none := by decide
  change readFrom o positional ("--import-dir" :: directory :: rest) = _
  rw [readFrom.eq_def]
  simp only [hjoined]
  rw [if_neg (by decide), if_neg (by decide), if_neg (by decide)]
  rfl

theorem readFrom_joined (o : Options) (positional : List Text) (directory : Text)
    (rest : List Text) :
    readFrom o positional (joined directory ++ rest) =
      if directory = [] then .error .missingImportDirectory
      else readFrom (o.addDirectory directory) positional rest := by
  have hdropped : Text.dropStart "--import-dir=" ("--import-dir=" ++ directory) = some directory :=
    Text.dropStart_eq_some_iff.mpr rfl
  have hother (a : Text) (ha : Text.dropStart "--import-dir=" a = none) :
      ("--import-dir=" : Text) ++ directory ≠ a := by
    rintro rfl
    rw [hdropped] at ha
    cases ha
  change readFrom o positional (("--import-dir=" ++ directory) :: rest) = _
  rw [readFrom.eq_def]
  simp only [hdropped]
  rw [if_neg (not_or.mpr ⟨hother _ (by decide), hother _ (by decide)⟩),
    if_neg (hother _ (by decide)),
    if_neg (not_or.mpr ⟨hother _ (by decide), hother _ (by decide)⟩)]
  cases directory with
  | nil => rfl
  | cons b directory => rfl

/-- From a state, the arguments are read to an end, or to the state in which what follows is
read. -/
def Passes (o : Options) (positional : List Text) (before : List Text) : Prop :=
  (∃ outcome, ∀ rest, readFrom o positional (before ++ rest) = outcome) ∨
    ∃ o' positional', ∀ rest,
      readFrom o positional (before ++ rest) = readFrom o' positional' rest

theorem passes_argument (o : Options) (positional : List Text) {a : Text}
    (h : a ≠ "--import-dir") : Passes o positional [a] := by
  have hstep (rest : List Text) := readFrom.eq_def o positional (a :: rest)
  simp only [if_neg h] at hstep
  unfold Passes
  simp only [List.singleton_append, hstep]
  split
  · exact .inl ⟨_, fun _ => rfl⟩
  · split
    · exact .inl ⟨_, fun _ => rfl⟩
    · split
      · exact .inr ⟨_, _, fun _ => rfl⟩
      · split
        · exact .inl ⟨_, fun _ => rfl⟩
        · exact .inr ⟨_, _, fun _ => rfl⟩
        · split
          · exact .inl ⟨_, fun _ => rfl⟩
          · cases o.command with
            | some command => exact .inr ⟨_, _, fun _ => rfl⟩
            | none =>
              dsimp only
              split
              · exact .inr ⟨_, _, fun _ => rfl⟩
              · split
                · exact .inr ⟨_, _, fun _ => rfl⟩
                · exact .inl ⟨_, fun _ => rfl⟩

/-! ### A run over arguments -/

theorem Passes.append {o : Options} {positional before after : List Text}
    (h : Passes o positional before) (hafter : ∀ o positional, Passes o positional after) :
    Passes o positional (before ++ after) := by
  rcases h with ⟨outcome, hends⟩ | ⟨o₁, positional₁, hreaches⟩
  · left
    exact ⟨outcome, fun rest => by rw [List.append_assoc, hends]⟩
  · rcases hafter o₁ positional₁ with ⟨outcome, hends⟩ | ⟨o₂, positional₂, hagain⟩
    · left
      exact ⟨outcome, fun rest => by rw [List.append_assoc, hreaches, hends]⟩
    · right
      exact ⟨o₂, positional₂, fun rest => by rw [List.append_assoc, hreaches, hagain]⟩

theorem Whole.passes {before : List Text} (h : Whole before) (o : Options)
    (positional : List Text) : Passes o positional before := by
  induction h generalizing o positional with
  | nil => exact .inr ⟨o, positional, fun _ => rfl⟩
  | @directory directory rest more ih =>
    have hpair : Passes o positional (separate directory) :=
      .inr ⟨_, _, readFrom_separate o positional directory⟩
    exact hpair.append ih
  | @argument a rest other more ih => exact (passes_argument o positional other).append ih

/-- Two arguments and the joined one are read to the same outcome if the directory has a name. In
general they agree exactly if it has, or the reading ends before, or the arguments are refused
anyway. -/
theorem parse_joined {before : List Text} (h : Whole before) (directory : Text)
    (after : List Text) :
    (directory ≠ [] →
        parse (before ++ (joined directory ++ after)) =
          parse (before ++ (separate directory ++ after))) ∧
      (Agree (parse (before ++ (joined directory ++ after)))
          (parse (before ++ (separate directory ++ after))) ↔
        directory ≠ [] ∨ Ends before ∨
          ∃ e, parse (before ++ (separate directory ++ after)) = .error e) := by
  rcases h.passes {} [] with ⟨outcome, hends⟩ | ⟨o, positional, hreaches⟩
  · have hsame : parse (before ++ (joined directory ++ after)) =
        parse (before ++ (separate directory ++ after)) := (hends _).trans (hends _).symm
    have hended : Ends before := ⟨outcome, hends⟩
    exact ⟨fun _ => hsame, iff_of_true (congrArg _ hsame) (.inr (.inl hended))⟩
  · have hjoined : parse (before ++ (joined directory ++ after)) =
        if directory = [] then .error .missingImportDirectory
        else readFrom (o.addDirectory directory) positional after :=
      (hreaches _).trans (readFrom_joined o positional directory after)
    have hseparate : parse (before ++ (separate directory ++ after)) =
        readFrom (o.addDirectory directory) positional after :=
      (hreaches _).trans (readFrom_separate o positional directory after)
    by_cases hname : directory = []
    · rw [if_pos hname] at hjoined
      have hagree : Agree (parse (before ++ (joined directory ++ after)))
          (parse (before ++ (separate directory ++ after))) ↔
            ∃ e, parse (before ++ (separate directory ++ after)) = .error e := by
        rw [Agree, hjoined]
        cases parse (before ++ (separate directory ++ after)) with
        | ok options => simp [Except.toOption]
        | error e => simp [Except.toOption]
      have hended : Ends before →
          ∃ e, parse (before ++ (separate directory ++ after)) = .error e := by
        rintro ⟨outcome, hends⟩
        exact ⟨_, (hends _).trans ((hends _).symm.trans hjoined)⟩
      refine ⟨fun hne => absurd hname hne, hagree.trans ⟨fun h => .inr (.inr h), ?_⟩⟩
      rintro (hne | hends | herror)
      · exact absurd hname hne
      · exact hended hends
      · exact herror
    · have hsame := hjoined.trans ((if_neg hname).trans hseparate.symm)
      exact ⟨fun _ => hsame, iff_of_true (congrArg _ hsame) (.inl hname)⟩

/-- A directory that is named like an option, between a command and its input. -/
theorem parse_joined_help :
    Whole ["idl", "-v"] ∧
      parse ["idl", "-v", "--import-dir=--help", "a.avdl"] =
        parse ["idl", "-v", "--import-dir", "--help", "a.avdl"] := by
  have hwhole : Whole ["idl", "-v"] := .argument (by decide) (.argument (by decide) .nil)
  exact ⟨hwhole, (parse_joined hwhole "--help" ["a.avdl"]).1 (by decide)⟩

/-- The empty name is a directory of its own, or none. -/
theorem exists_disagreement :
    ∃ before directory after, Whole before ∧
      ¬Agree (parse (before ++ (joined directory ++ after)))
        (parse (before ++ (separate directory ++ after))) := by
  have hwhole : Whole ["idl"] := .argument (by decide) .nil
  have hdiffer : (parse ["idl", "--import-dir="]).toOption ≠
      (parse ["idl", "--import-dir", ""]).toOption := by decide
  exact ⟨["idl"], "", [], hwhole, hdiffer⟩

end AvroIdl.CommandLine
