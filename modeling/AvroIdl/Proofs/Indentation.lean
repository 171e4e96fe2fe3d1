import AvroIdl.Documentation
import Mathlib.Data.List.Forall2
import Mathlib.Data.List.TakeWhile

/-!
# What stripping takes from a comment

Of a comment with several lines either a column of stars is taken, which all lines with content
start with, or the blanks that the later ones share. Line by line only such a beginning goes, so no
text is lost; a comment without these is kept as it is.
-/
namespace AvroIdl

theorem Text.hasStart_iff {start t : Text} : Text.hasStart start t = true ↔ start <+: t := by
  rw [hasStart, Option.isSome_iff_exists]
  simp only [dropStart_eq_some_iff]
  exact ⟨fun ⟨rest, h⟩ => ⟨rest, h.symm⟩, fun ⟨rest, h⟩ => ⟨rest, h.symm⟩⟩

namespace Documentation

def IsBlanks (t : Text) : Prop := ∀ b ∈ t, isBlank b = true

/-- A column of one or two stars: those that the first line starts with, and every later line that
is not blank after its blanks. -/
structure IsStarColumn (column first : Text) (later : List Text) : Prop where
  width : column = [Byte.star] ∨ column = [Byte.star, Byte.star]
  starts : column <+: first
  both : [Byte.star, Byte.star] <+: first → column = [Byte.star, Byte.star]
  shared : ∀ line ∈ later, ¬IsBlanks line →
    ∃ blanks rest, IsBlanks blanks ∧ line = blanks ++ column ++ rest

/-- The longest blanks with which all lines start that are not blank. -/
structure IsCommonIndent (common : Text) (lines : List Text) : Prop where
  blanks : IsBlanks common
  shared : ∀ line ∈ lines, ¬IsBlanks line → common <+: line
  longest : ∀ t, IsBlanks t → (∀ line ∈ lines, ¬IsBlanks line → t <+: line) →
    t.length ≤ common.length

/-- From the front of a line go blanks, the stars and a space after them, if there is one. A line of
blanks goes altogether. -/
inductive StarCut (column : Text) : (line left : Text) → Prop
  | line {blanks gap left : Text} (blank : IsBlanks blanks)
      (gap_eq : gap = [Byte.space] ∨ gap = [] ∧ left.head? ≠ some Byte.space) :
      StarCut column (blanks ++ column ++ gap ++ left) left
  | blank {line : Text} (blank : IsBlanks line) : StarCut column line []

/-- From the front of a line goes the indentation. A line of blanks may be shorter, and is kept. -/
inductive CommonCut (common : Text) : (line left : Text) → Prop
  | line (left : Text) : CommonCut common (common ++ left) left
  | short {line : Text} (blank : IsBlanks line) (short : line.length < common.length) :
      CommonCut common line line

/-- A line of blanks need not start with the indentation: as many blanks go. -/
inductive IndentCut (common : Text) : (line left : Text) → Prop
  | common {line left : Text} (cut : CommonCut common line left) : IndentCut common line left
  | blank {cut left : Text} (blank : IsBlanks (cut ++ left)) (length : cut.length = common.length) :
      IndentCut common (cut ++ left) left

/-- What is left of the lines of a text of which the indentation is taken. -/
inductive Stripped : (lines left : List Text) → Prop
  | stars {column first : Text} {later left : List Text} (several : later ≠ [])
      (starred : IsStarColumn column first later)
      (cuts : List.Forall₂ (StarCut column) (first :: later) left) :
      Stripped (first :: later) left
  | blanks {common first : Text} {later left : List Text}
      (other : ∀ column, ¬IsStarColumn column first later) (some : common ≠ [])
      (indent : IsCommonIndent common later) (cuts : List.Forall₂ (IndentCut common) later left) :
      Stripped (first :: later) (first :: left)

/-! ### Blanks and content -/

theorem content_isEmpty_iff {line : Text} : (content line).isEmpty = true ↔ IsBlanks line := by
  rw [List.isEmpty_iff, content, List.dropWhile_eq_nil_iff]
  rfl

theorem isBlanks_indent (line : Text) : IsBlanks (indent line) := fun _ hb =>
  List.mem_takeWhile_imp hb

theorem indent_append_content (line : Text) : indent line ++ content line = line :=
  List.takeWhile_append_dropWhile

theorem prefix_indent_iff {t line : Text} : t <+: indent line ↔ IsBlanks t ∧ t <+: line := by
  constructor
  · intro h
    refine ⟨fun b hb => isBlanks_indent line b (h.subset hb), h.trans ?_⟩
    exact List.takeWhile_prefix isBlank
  · rintro ⟨hblanks, rest, rfl⟩
    rw [indent, List.takeWhile_append_of_pos hblanks]
    exact List.prefix_append _ _

/-! ### The blanks that lines share -/

theorem prefix_commonStart_iff {u s t : Text} :
    u <+: commonStart s t ↔ u <+: s ∧ u <+: t := by
  fun_induction commonStart s t generalizing u with
  | case1 c s t ih =>
    cases u with
    | nil => simp
    | cons b u =>
      simp only [List.cons_prefix_cons, ih]
      tauto
  | case2 c s d t hne =>
    cases u with
    | nil => simp
    | cons b u =>
      simp only [List.cons_prefix_cons, List.prefix_nil]
      constructor
      · intro h
        cases h
      · rintro ⟨⟨rfl, -⟩, rfl, -⟩
        exact absurd rfl hne
  | case3 s t hends =>
    rw [List.prefix_nil]
    constructor
    · rintro rfl
      exact ⟨List.nil_prefix, List.nil_prefix⟩
    · rintro ⟨hs, ht⟩
      cases u with
      | nil => rfl
      | cons b u =>
        obtain ⟨s', rfl⟩ := hs
        obtain ⟨t', rfl⟩ := ht
        exact absurd rfl (hends _ _ _ _ rfl)

theorem prefix_foldl_commonStart_iff {u i : Text} {ts : List Text} :
    u <+: ts.foldl commonStart i ↔ u <+: i ∧ ∀ t ∈ ts, u <+: t := by
  induction ts generalizing i with
  | nil => simp
  | cons t ts ih =>
    rw [List.foldl_cons, ih, prefix_commonStart_iff, List.forall_mem_cons, and_assoc]

/-- The common indentation is the greatest of the blanks that all lines with content start with. -/
theorem prefix_commonIndent_iff {u : Text} {later : List Text}
    (h : ∃ line ∈ later, ¬IsBlanks line) :
    u <+: commonIndent later ↔ IsBlanks u ∧ ∀ line ∈ later, ¬IsBlanks line → u <+: line := by
  obtain ⟨full, hfull, hcontent⟩ := h
  have hmem {line : Text} : (line ∈ later.filter fun line => !(content line).isEmpty) ↔
      line ∈ later ∧ ¬IsBlanks line := by
    rw [List.mem_filter, Bool.not_eq_true', ← Bool.not_eq_true, content_isEmpty_iff]
  have hall : u <+: commonIndent later ↔ ∀ line ∈ later, ¬IsBlanks line → u <+: indent line := by
    rw [commonIndent]
    split
    · next hnone =>
      have hin := hmem.mpr ⟨hfull, hcontent⟩
      rw [List.map_eq_nil_iff.mp hnone] at hin
      cases hin
    · next i rest hsome =>
      have hindents : (u <+: i ∧ ∀ t ∈ rest, u <+: t) ↔
          ∀ t ∈ (later.filter fun line => !(content line).isEmpty).map indent, u <+: t := by
        rw [hsome, List.forall_mem_cons]
      rw [prefix_foldl_commonStart_iff, hindents, List.forall_mem_map]
      simp only [hmem, and_imp]
  rw [hall]
  simp only [prefix_indent_iff]
  constructor
  · intro hu
    exact ⟨(hu full hfull hcontent).1, fun line hline hne => (hu line hline hne).2⟩
  · rintro ⟨hblanks, hshared⟩ line hline hne
    exact ⟨hblanks, hshared line hline hne⟩

theorem isCommonIndent_commonIndent {later : List Text} (h : ∃ line ∈ later, ¬IsBlanks line) :
    IsCommonIndent (commonIndent later) later := by
  obtain ⟨hblanks, hshared⟩ := (prefix_commonIndent_iff h).mp (List.prefix_refl _)
  exact ⟨hblanks, hshared, fun t ht hall => ((prefix_commonIndent_iff h).mpr ⟨ht, hall⟩).length_le⟩

/-- Lines of blanks have no common indentation: any number of blanks would do. -/
theorem IsCommonIndent.exists_content {common : Text} {lines : List Text}
    (h : IsCommonIndent common lines) : ∃ line ∈ lines, ¬IsBlanks line := by
  by_contra hnone
  have hlonger := h.longest (Byte.space :: common)
    (List.forall_mem_cons.mpr ⟨rfl, h.blanks⟩) fun line hline hne => absurd ⟨line, hline, hne⟩ hnone
  exact Nat.not_succ_le_self _ hlonger

theorem IsCommonIndent.eq {common : Text} {later : List Text} (h : IsCommonIndent common later) :
    common = commonIndent later := by
  have hsome := h.exists_content
  have hle := h.longest _ (isCommonIndent_commonIndent hsome).blanks
    (isCommonIndent_commonIndent hsome).shared
  have hprefix := (prefix_commonIndent_iff hsome).mpr ⟨h.blanks, h.shared⟩
  exact hprefix.eq_of_length_le hle

theorem commonIndent_eq_nil {later : List Text} (h : ¬∃ line ∈ later, ¬IsBlanks line) :
    commonIndent later = [] := by
  have hnone : (later.filter fun line => !(content line).isEmpty) = [] := by
    rw [List.filter_eq_nil_iff]
    intro line hline
    by_contra hcontent
    refine h ⟨line, hline, ?_⟩
    rw [← content_isEmpty_iff]
    simpa using hcontent
  rw [commonIndent, hnone]
  rfl

/-- A line loses as many bytes as the indentation has, if it has them. -/
theorem indentCut_drop {common : Text} {lines : List Text} (h : IsCommonIndent common lines)
    {line : Text} (hline : line ∈ lines) :
    IndentCut common line
      (if common.length ≤ line.length then line.drop common.length else line) := by
  by_cases hblank : IsBlanks line
  · split
    · next hle =>
      have hcut := List.take_append_drop common.length line
      have hlength : (line.take common.length).length = common.length :=
        List.length_take_of_le hle
      have hpiece : IndentCut common (line.take common.length ++ line.drop common.length) _ :=
        .blank (hcut.symm ▸ hblank) hlength
      rwa [hcut] at hpiece
    · next hshort => exact .common (.short hblank (Nat.lt_of_not_le hshort))
  · obtain ⟨left, rfl⟩ := h.shared line hline hblank
    rw [if_pos (by simp), List.drop_left]
    exact .common (.line left)

theorem stripBlanks_eq_some {first : Text} {later left : List Text}
    (h : stripBlanks first later = some left) :
    ∃ common rest, common ≠ [] ∧ IsCommonIndent common later ∧ left = first :: rest ∧
      List.Forall₂ (IndentCut common) later rest := by
  rw [stripBlanks] at h
  split at h
  · cases h
  · next hne =>
    cases h
    have hcommon : commonIndent later ≠ [] := fun hnil => hne (by simp [hnil])
    have hindent : IsCommonIndent (commonIndent later) later :=
      isCommonIndent_commonIndent (not_not.mp fun hnone => hcommon (commonIndent_eq_nil hnone))
    refine ⟨_, _, hcommon, hindent, rfl, List.forall₂_map_right_iff.mpr ?_⟩
    exact List.forall₂_same.mpr fun line hline => indentCut_drop hindent hline

theorem commonIndent_of_stripBlanks {first : Text} {later : List Text}
    (h : stripBlanks first later = none) {common : Text} (hcommon : IsCommonIndent common later) :
    common = [] := by
  rw [stripBlanks] at h
  split at h
  · next hlength => exact hcommon.eq.trans (List.length_eq_zero_iff.mp hlength)
  · cases h

/-! ### The column of stars -/

/-- Which stars a line starts with. -/
theorem stars_cases (first : Text) :
    stars first = [] ∧ ¬[Byte.star] <+: first ∨
      stars first = [Byte.star] ∧ [Byte.star] <+: first ∧ ¬[Byte.star, Byte.star] <+: first ∨
        stars first = [Byte.star, Byte.star] ∧ [Byte.star, Byte.star] <+: first := by
  rcases first with _ | ⟨c, _ | ⟨d, rest⟩⟩
  · simp [stars]
  · by_cases hc : c = Byte.star
    · simp [stars, hc]
    · simp [stars, hc, Ne.symm hc]
  · by_cases hc : c = Byte.star
    · by_cases hd : d = Byte.star
      · simp [stars, hc, hd]
      · simp [stars, hc, hd, Ne.symm hd]
    · simp [stars, hc, Ne.symm hc]

theorem IsStarColumn.eq {column first : Text} {later : List Text}
    (h : IsStarColumn column first later) : column = stars first := by
  have hone : [Byte.star] <+: first := by
    rcases h.width with rfl | rfl
    · exact h.starts
    · exact .trans (List.prefix_append [Byte.star] [Byte.star]) h.starts
  rcases stars_cases first with ⟨-, hnone⟩ | ⟨hstars, -, hnot⟩ | ⟨hstars, htwo⟩
  · exact absurd hone hnone
  · rcases h.width with rfl | rfl
    · exact hstars.symm
    · exact absurd h.starts hnot
  · exact (h.both htwo).trans hstars.symm

/-- A line has the column after its blanks. -/
theorem prefix_content_iff {column line : Text} (h : column.head? = some Byte.star) :
    column <+: content line ↔
      ∃ blanks rest, IsBlanks blanks ∧ line = blanks ++ column ++ rest := by
  obtain ⟨column, rfl⟩ := List.head?_eq_some_iff.mp h
  constructor
  · rintro ⟨rest, hrest⟩
    refine ⟨indent line, rest, isBlanks_indent line, ?_⟩
    rw [List.append_assoc, hrest, indent_append_content]
  · rintro ⟨blanks, rest, hblanks, rfl⟩
    refine ⟨rest, ?_⟩
    rw [content, List.append_assoc, List.dropWhile_append_of_pos hblanks, List.cons_append,
      List.dropWhile_cons_of_neg (by decide)]

/-- After the stars goes a space, if there is one. -/
theorem starCut_dropStars {column blanks text : Text} (h : IsBlanks blanks)
    (hcolumn : column <+: text) :
    StarCut column (blanks ++ text) (dropStars column.length text) := by
  obtain ⟨rest, rfl⟩ := hcolumn
  have hline (gap left : Text)
      (hgap : gap = [Byte.space] ∨ gap = [] ∧ left.head? ≠ some Byte.space) :
      StarCut column (blanks ++ (column ++ (gap ++ left))) left := by
    have hcut : StarCut column (blanks ++ column ++ gap ++ left) left := .line h hgap
    rwa [List.append_assoc, List.append_assoc] at hcut
  rw [dropStars, List.drop_left]
  cases rest with
  | nil => exact hline [] _ (.inr ⟨rfl, by simp⟩)
  | cons b rest =>
    by_cases hb : b = Byte.space
    · subst hb
      exact hline [_] _ (.inl rfl)
    · simp only [if_neg hb]
      exact hline [] _ (.inr ⟨rfl, by simpa using hb⟩)

theorem head?_stars {first : Text} (h : stars first ≠ []) :
    (stars first).head? = some Byte.star := by
  rcases stars_cases first with ⟨hnone, -⟩ | ⟨hone, -⟩ | ⟨htwo, -⟩
  · exact absurd hnone h
  · rw [hone]
    rfl
  · rw [htwo]
    rfl

theorem isStarColumn_iff {column first : Text} {later : List Text} :
    IsStarColumn column first later ↔ column = stars first ∧ column ≠ [] ∧
      ∀ line ∈ later, IsBlanks line ∨ column <+: content line := by
  constructor
  · intro h
    have hne : column ≠ [] := by
      rcases h.width with rfl | rfl <;> simp
    have hhead := head?_stars (h.eq ▸ hne)
    refine ⟨h.eq, hne, fun line hline => ?_⟩
    rw [← h.eq] at hhead
    exact or_iff_not_imp_left.mpr fun hblank =>
      (prefix_content_iff hhead).mpr (h.shared line hline hblank)
  · rintro ⟨rfl, hne, hlater⟩
    have hshared : ∀ line ∈ later, ¬IsBlanks line →
        ∃ blanks rest, IsBlanks blanks ∧ line = blanks ++ stars first ++ rest :=
      fun line hline hblank =>
        (prefix_content_iff (head?_stars hne)).mp ((hlater line hline).resolve_left hblank)
    rcases stars_cases first with ⟨hnone, -⟩ | ⟨hone, hstarts, hnot⟩ | ⟨htwo, hstarts⟩
    · exact absurd hnone hne
    · exact ⟨.inl hone, hone ▸ hstarts, fun htwo => absurd htwo hnot, hshared⟩
    · exact ⟨.inr htwo, htwo ▸ hstarts, fun _ => htwo, hshared⟩

/-- Stripping looks for a column of stars, and takes it from each line. -/
theorem stripStars_cases (first : Text) (later : List Text) :
    IsStarColumn (stars first) first later ∧
        (∃ left, stripStars first later = some left ∧
          List.Forall₂ (StarCut (stars first)) (first :: later) left) ∨
      ¬IsStarColumn (stars first) first later ∧ stripStars first later = none := by
  have htest : ((stars first).isEmpty || !later.all fun line =>
      (content line).isEmpty || Text.hasStart (stars first) (content line)) = true ↔
        ¬IsStarColumn (stars first) first later := by
    rw [isStarColumn_iff, ← Bool.not_eq_false, not_iff_not, Bool.or_eq_false_iff,
      Bool.not_eq_false', List.all_eq_true]
    simp only [Bool.or_eq_true, content_isEmpty_iff, Text.hasStart_iff, true_and,
      List.isEmpty_eq_false_iff]
  by_cases hcolumn : IsStarColumn (stars first) first later
  · refine .inl ⟨hcolumn, _, if_neg fun h => htest.mp h hcolumn, ?_⟩
    obtain ⟨-, -, hlater⟩ := isStarColumn_iff.mp hcolumn
    have hnone : IsBlanks [] := fun _ hb => nomatch hb
    refine .cons (starCut_dropStars hnone hcolumn.starts) ?_
    rw [List.forall₂_map_right_iff, List.forall₂_same]
    intro line hline
    split
    · next hblank => exact .blank (content_isEmpty_iff.mp hblank)
    · next hcontent =>
      have hprefix := (hlater line hline).resolve_left fun h => hcontent (content_isEmpty_iff.mpr h)
      have hcut := starCut_dropStars (isBlanks_indent line) hprefix
      rwa [indent_append_content] at hcut
  · exact .inr ⟨hcolumn, if_pos (htest.mpr hcolumn)⟩

/-! ### The text as a whole -/

theorem StarCut.suffix {column line left : Text} (h : StarCut column line left) :
    left <:+ line := by
  cases h with
  | line blank gap_eq => exact List.suffix_append _ _
  | blank blank => exact List.nil_suffix

theorem CommonCut.eq_or {common line left : Text} (h : CommonCut common line left) :
    line = common ++ left ∨ left = line := by
  cases h with
  | line => exact .inl rfl
  | short blank short => exact .inr rfl

theorem IndentCut.suffix {common line left : Text} (h : IndentCut common line left) :
    left <:+ line := by
  cases h with
  | common cut =>
    rcases cut.eq_or with rfl | rfl
    · exact List.suffix_append _ _
    · exact List.suffix_refl _
  | blank blank length => exact List.suffix_append _ _

/-- What is left are as many lines, each the end of one. -/
theorem Stripped.suffixes {lines left : List Text} (h : Stripped lines left) :
    List.Forall₂ (fun line left => left <:+ line) lines left := by
  cases h with
  | stars several starred cuts => exact cuts.imp fun _ _ h => h.suffix
  | blanks other some indent cuts =>
    exact .cons (List.suffix_refl _) (cuts.imp fun _ _ h => h.suffix)

theorem newline_notMem_of_mem_lines {t line : Text} (h : line ∈ lines t) :
    Byte.newline ∉ line := by
  obtain ⟨piece, hpiece, rfl⟩ := List.mem_map.mp h
  have hnone := Text.notMem_of_mem_split hpiece
  rw [dropCarriageReturn]
  split
  · exact fun hmem => hnone (List.dropLast_subset _ hmem)
  · exact hnone

theorem lines_ne_nil (t : Text) : lines t ≠ [] := fun h =>
  Text.split_ne_nil Byte.newline t (List.map_eq_nil_iff.mp h)

/-- The lines that are left can be told from the text that they are joined to. -/
theorem Stripped.split_join {t : Text} {left : List Text} (h : Stripped (lines t) left) :
    Text.split Byte.newline (Text.join [Byte.newline] left) = left := by
  have hsuffixes := h.suffixes
  refine Text.split_join ?_ ?_
  · rintro rfl
    exact lines_ne_nil t (List.forall₂_nil_right_iff.mp hsuffixes)
  · have hnone : ∀ line ∈ lines t, Byte.newline ∉ line := fun _ => newline_notMem_of_mem_lines
    clear h
    generalize lines t = whole at hsuffixes hnone
    induction hsuffixes with
    | nil => simp
    | cons hsuffix more ih =>
      obtain ⟨hline, hlater⟩ := List.forall_mem_cons.mp hnone
      exact List.forall_mem_cons.mpr ⟨fun hmem => hline (hsuffix.subset hmem), ih hlater⟩

/-- The lines of a text decide whether it is stripped and what is left of it. -/
theorem stripIndents_of_lines (whole : List Text) :
    (∃ left, Stripped whole left ∧
        ∀ t, lines t = whole → stripIndents t = Text.join [Byte.newline] left) ∨
      (∀ left, ¬Stripped whole left) ∧ ∀ t, lines t = whole → stripIndents t = t := by
  unfold stripIndents
  rcases whole with _ | ⟨first, _ | ⟨second, rest⟩⟩
  · refine .inr ⟨fun left h => (nomatch h), fun t ht => ?_⟩
    rw [ht]
  · refine .inr ⟨fun left => ?_, fun t ht => by rw [ht]⟩
    rintro (⟨several, starred, cuts⟩ | ⟨other, some, indent, cuts⟩)
    · exact several rfl
    · obtain ⟨line, hline, -⟩ := indent.exists_content
      cases hline
  · rcases stripStars_cases first (second :: rest) with
      ⟨hstarred, left, hleft, hcuts⟩ | ⟨hnot, hnone⟩
    · refine .inl ⟨left, .stars (by simp) hstarred hcuts, fun t ht => ?_⟩
      rw [ht]
      simp only [hleft]
    · have hother (column : Text) : ¬IsStarColumn column first (second :: rest) := fun h =>
        hnot (h.eq ▸ h)
      cases hblanks : stripBlanks first (second :: rest) with
      | some left =>
        obtain ⟨common, later, hsome, hindent, rfl, hcuts⟩ := stripBlanks_eq_some hblanks
        refine .inl ⟨_, .blanks hother hsome hindent hcuts, fun t ht => ?_⟩
        rw [ht]
        simp only [hnone, hblanks]
      | none =>
        refine .inr ⟨fun left => ?_, fun t ht => ?_⟩
        · rintro (⟨several, starred, cuts⟩ | ⟨other, some, indent, cuts⟩)
          · exact hother _ starred
          · exact some (commonIndent_of_stripBlanks hblanks indent)
        · rw [ht]
          simp only [hnone, hblanks]

/-- A text is kept if it has neither a column of stars nor a common indentation, and else
stripped. -/
theorem stripIndents_cases (t : Text) :
    (stripIndents t = t ∧ ∀ left, ¬Stripped (lines t) left) ∨
      ∃ left, stripIndents t = Text.join [Byte.newline] left ∧
        Stripped (lines t) left := by
  rcases stripIndents_of_lines (lines t) with ⟨left, hstripped, hleft⟩ | ⟨hnone, hkept⟩
  · exact .inr ⟨left, hleft t rfl, hstripped⟩
  · exact .inl ⟨hkept t rfl, hnone⟩

/-- Either a text has nothing to strip and is kept, or it is stripped line by line: its lines lose
the column of stars, or the indentation that the later ones share, and nothing else. -/
theorem kept_or_stripped (t : Text) :
    (stripIndents t = t ∧ ∀ left, ¬Stripped (lines t) left) ∨
      Stripped (lines t) (Text.split Byte.newline (stripIndents t)) := by
  rcases stripIndents_cases t with hkept | ⟨left, hleft, hstripped⟩
  · exact .inl hkept
  · refine .inr ?_
    rw [hleft, hstripped.split_join]
    exact hstripped

/-- The second line and the last one are indented by spaces, and between them stand two tabs. -/
def mixedText : Text := "a\n  b\n\t\t\n  c"

/-- A line of blanks may lose others than the lines with content share: the text is stripped, no
stars are in it, and one line does not lose the indentation of the others. -/
theorem exists_cut_unlike_indentation :
    ∃ t left, Text.split Byte.newline (stripIndents t) = left ∧
      ¬(stripIndents t = t ∨
        (∃ column, (column = [Byte.star] ∨ column = [Byte.star, Byte.star]) ∧
          ∀ line ∈ lines t, ¬IsBlanks line →
            ∃ blanks rest, IsBlanks blanks ∧ line = blanks ++ column ++ rest) ∨
        ∃ common, IsCommonIndent common (lines t).tail ∧
          List.Forall₂ (CommonCut common) (lines t).tail left.tail) := by
  have hlines : lines mixedText = ["a", "  b", "\t\t", "  c"] := by decide
  have hleft : Text.split Byte.newline (stripIndents mixedText) = ["a", "b", "", "c"] := by decide
  refine ⟨mixedText, _, hleft, ?_⟩
  rw [hlines]
  rintro (hkept | ⟨column, hcolumn, hstarred⟩ | ⟨common, hcommon, hcuts⟩)
  · revert hkept
    decide
  · obtain ⟨blanks, rest, -, hfirst⟩ := hstarred _ List.mem_cons_self (by unfold IsBlanks; decide)
    have hstar : Byte.star ∈ Text.ofAscii "a" := by
      rw [hfirst]
      rcases hcolumn with rfl | rfl <;> simp
    revert hstar
    decide
  · rcases (List.forall₂_cons.mp (List.forall₂_cons.mp hcuts).2).1.eq_or with hcut | hkept
    · rw [hcommon.eq] at hcut
      revert hcut
      decide
    · revert hkept
      decide

end Documentation

end AvroIdl
