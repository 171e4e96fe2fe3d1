import AvroIdl.Proofs.Indentation

/-!
# Line endings

A comment may be written with a carriage return before each of its newlines. Its lines are the same,
and so is its documentation wherever indentation is taken from these lines, since they are joined
with newlines then. A documentation of several lines without indentation is kept as it is written,
and its carriage returns with it.
-/
namespace AvroIdl

/-- The text with a carriage return before each newline. -/
def Text.withReturns (t : Text) : Text :=
  t.flatMap fun b => if b = Byte.newline then [Byte.carriageReturn, b] else [b]

namespace Text

@[simp] theorem withReturns_nil : withReturns [] = [] := rfl

@[simp] theorem withReturns_newline (t : Text) :
    withReturns (Byte.newline :: t) = Byte.carriageReturn :: Byte.newline :: t.withReturns := rfl

theorem withReturns_cons {b : UInt8} (h : b ≠ Byte.newline) (t : Text) :
    withReturns (b :: t) = b :: t.withReturns := by
  simp [withReturns, h]

theorem withReturns_append (s t : Text) :
    withReturns (s ++ t) = s.withReturns ++ t.withReturns := List.flatMap_append

theorem withReturns_of_notMem {t : Text} (h : Byte.newline ∉ t) : t.withReturns = t := by
  induction t with
  | nil => rfl
  | cons b t ih =>
    have hb : b ≠ Byte.newline := fun he => h (he ▸ List.mem_cons_self)
    have ht := ih fun hmem => h (List.mem_cons_of_mem b hmem)
    rw [withReturns_cons hb, ht]

theorem length_withReturns (t : Text) :
    t.withReturns.length = t.length + t.count Byte.newline := by
  induction t with
  | nil => rfl
  | cons b t ih =>
    by_cases hb : b = Byte.newline
    · rw [hb, withReturns_newline, List.count_cons_self]
      simp only [List.length_cons]
      omega
    · rw [withReturns_cons hb, List.count_cons_of_ne hb]
      simp only [List.length_cons]
      omega

theorem withReturns_eq_self_iff {t : Text} : t.withReturns = t ↔ Byte.newline ∉ t := by
  constructor
  · intro h
    have hlength := length_withReturns t
    rw [h] at hlength
    apply List.count_eq_zero.mp
    omega
  · exact withReturns_of_notMem

/-- What was added can be taken away. -/
theorem filter_withReturns {t : Text} (h : Byte.carriageReturn ∉ t) :
    t.withReturns.filter (· ≠ Byte.carriageReturn) = t := by
  induction t with
  | nil => rfl
  | cons b t ih =>
    have hb : b ≠ Byte.carriageReturn := fun he => h (he ▸ List.mem_cons_self)
    have ht := ih fun hmem => h (List.mem_cons_of_mem b hmem)
    by_cases hnewline : b = Byte.newline
    · subst hnewline
      rw [withReturns_newline, List.filter_cons_of_neg (by decide),
        List.filter_cons_of_pos (by decide), ht]
    · rw [withReturns_cons hnewline, List.filter_cons_of_pos (by simpa using hb), ht]

end Text

/-- Bytes that become bytes of the same class are passed over before and after. -/
theorem dropWhile_flatMap {p : UInt8 → Bool} {f : UInt8 → Text}
    (hin : ∀ b, p b = true → ∀ c ∈ f b, p c = true) (hout : ∀ b, p b = false → f b = [b])
    (t : Text) : (t.flatMap f).dropWhile p = (t.dropWhile p).flatMap f := by
  induction t with
  | nil => rfl
  | cons b t ih =>
    rw [List.flatMap_cons]
    cases hb : p b with
    | true => rw [List.dropWhile_append_of_pos (hin b hb), ih, List.dropWhile_cons_of_pos hb]
    | false =>
      have hkept : ¬p b = true := by simp [hb]
      rw [hout b hb, List.singleton_append, List.dropWhile_cons_of_neg hkept,
        List.dropWhile_cons_of_neg hkept, List.flatMap_cons, hout b hb, List.singleton_append]

namespace Documentation

theorem isMargin_withReturns (b : UInt8) (hb : isMargin b = true) :
    ∀ c ∈ (if b = Byte.newline then [Byte.carriageReturn, b] else [b]), isMargin c = true := by
  split
  · next h =>
    subst h
    simp [isMargin]
  · simpa using hb

/-- Both bytes of a line ending belong to the margin. -/
theorem trim_withReturns (t : Text) :
    Text.trim isMargin t.withReturns = (Text.trim isMargin t).withReturns := by
  have hout (b : UInt8) (hb : isMargin b = false) : b ≠ Byte.newline := by
    rintro rfl
    cases hb
  have hfront : t.withReturns.dropWhile isMargin = Text.withReturns (t.dropWhile isMargin) :=
    dropWhile_flatMap isMargin_withReturns (fun b hb => if_neg (hout b hb)) t
  have hback (s : Text) : (s.withReturns.reverse.dropWhile isMargin).reverse =
      Text.withReturns (s.reverse.dropWhile isMargin).reverse := by
    have hline (b : UInt8) (hb : isMargin b = true) : ∀ c ∈
        (if b = Byte.newline then [Byte.carriageReturn, b] else [b]).reverse, isMargin c = true :=
      fun c hc => isMargin_withReturns b hb c (List.mem_reverse.mp hc)
    have hmargin := dropWhile_flatMap hline (fun b hb => by simp [hout b hb]) s.reverse
    rw [Text.withReturns, List.reverse_flatMap, Text.withReturns, ← List.reverse_inj,
      List.reverse_reverse, List.reverse_flatMap, List.reverse_reverse]
    exact hmargin
  rw [Text.trim, hfront, hback, Text.trim]

/-! ### The lines of a text -/

theorem dropCarriageReturn_cons {b : UInt8} (h : b ≠ Byte.carriageReturn) (line : Text) :
    dropCarriageReturn (b :: line) = b :: dropCarriageReturn line := by
  cases line with
  | nil => simp [dropCarriageReturn, h]
  | cons c line =>
    rw [dropCarriageReturn, dropCarriageReturn, List.getLast?_cons_cons, List.dropLast_cons_cons]
    split <;> rfl

theorem lines_append_newline (s t : Text) :
    lines (s ++ Byte.newline :: t) = lines s ++ lines t := by
  rw [lines, Text.split_append_cons, List.map_append]
  rfl

theorem lines_cons {b : UInt8} (hnewline : b ≠ Byte.newline) (hreturn : b ≠ Byte.carriageReturn)
    (t : Text) : lines (b :: t) = (lines t).modifyHead (b :: ·) := by
  obtain ⟨line, rest, hlines⟩ := List.exists_cons_of_ne_nil (Text.split_ne_nil Byte.newline t)
  have hsplit : Text.split Byte.newline (b :: t) = (b :: line) :: rest := by
    simp [Text.split, hlines, hnewline]
  rw [lines, lines, hsplit, hlines, List.map_cons, dropCarriageReturn_cons hreturn]
  rfl

/-- The carriage returns stand at the ends of lines, where they are dropped. -/
theorem lines_withReturns {t : Text} (h : Byte.carriageReturn ∉ t) :
    lines t.withReturns = lines t := by
  induction t with
  | nil => rfl
  | cons b t ih =>
    have hb : b ≠ Byte.carriageReturn := fun he => h (he ▸ List.mem_cons_self)
    have ht := ih fun hmem => h (List.mem_cons_of_mem b hmem)
    by_cases hnewline : b = Byte.newline
    · have hreturned := lines_append_newline [Byte.carriageReturn] (Text.withReturns t)
      have hplain := lines_append_newline [] t
      rw [hnewline, Text.withReturns_newline, ← List.nil_append (Byte.newline :: t), hplain, ← ht]
      exact hreturned
    · rw [Text.withReturns_cons hnewline, lines_cons hnewline hb, lines_cons hnewline hb, ht]

/-! ### The documentation in a comment -/

/-- A comment has documentation if something else than blanks and the ends of lines stands between
its delimiters. -/
theorem ofComment_delimited (inner : Text) :
    ofComment ("/**" ++ inner ++ "*/") =
      if Text.trim isMargin inner = [] then none
      else some (stripIndents (Text.trim isMargin inner)) := by
  have hopening : Text.dropStart "/**" ("/**" ++ inner ++ "*/") = some (inner ++ "*/") := by
    rw [Text.dropStart_eq_some_iff, List.append_assoc]
  have hlength : (inner ++ ("*/" : Text)).length - 2 = inner.length := by
    rw [List.length_append]
    rfl
  have hlong : ¬(("/**" : Text) ++ inner ++ "*/").length < 5 := by
    rw [List.length_append, List.length_append]
    have hopen : ("/**" : Text).length = 3 := rfl
    have hclose : ("*/" : Text).length = 2 := rfl
    omega
  unfold ofComment
  simp only [hopening, hlength, List.drop_left, List.take_left, List.isEmpty_iff]
  rw [if_neg]
  simpa using hlong

theorem ofComment_eq_none {comment : Text} (h : ∀ inner : Text, comment ≠ "/**" ++ inner ++ "*/") :
    ofComment comment = none := by
  unfold ofComment
  split
  · rfl
  · next rest hrest =>
    have hcomment := Text.dropStart_eq_some_iff.mp hrest
    rw [if_pos]
    right
    intro hclose
    apply h (rest.take (rest.length - 2))
    rw [hcomment, List.append_assoc, ← hclose, List.take_append_drop]

theorem withReturns_delimited (inner : Text) :
    Text.withReturns ("/**" ++ inner ++ "*/") = "/**" ++ inner.withReturns ++ "*/" := by
  rw [Text.withReturns_append, Text.withReturns_append]
  rfl

/-- The delimiters of a comment are the same in both styles. -/
theorem exists_delimited_withReturns_iff {comment : Text} (h : Byte.carriageReturn ∉ comment) :
    (∃ inner : Text, comment.withReturns = "/**" ++ inner ++ "*/") ↔
      ∃ inner : Text, comment = "/**" ++ inner ++ "*/" := by
  constructor
  · rintro ⟨inner, hinner⟩
    have hback := Text.filter_withReturns h
    rw [hinner, List.filter_append, List.filter_append] at hback
    exact ⟨_, hback.symm⟩
  · rintro ⟨inner, rfl⟩
    exact ⟨_, withReturns_delimited inner⟩

/-- The text is one line, or there is indentation to strip from its lines. -/
def IsRejoined (t : Text) : Prop :=
  Byte.newline ∉ t ∨ ∃ left, Stripped (lines t) left

/-- Stripping a text written in the other style gives the same exactly if the lines are joined
again. -/
theorem stripIndents_withReturns_eq_iff {t : Text} (h : Byte.carriageReturn ∉ t) :
    stripIndents t.withReturns = stripIndents t ↔ IsRejoined t := by
  have hlines := lines_withReturns h
  rcases stripIndents_of_lines (lines t) with ⟨left, hstripped, hleft⟩ | ⟨hnone, hkept⟩
  · have hsame := (hleft _ hlines).trans (hleft t rfl).symm
    exact iff_of_true hsame (.inr ⟨left, hstripped⟩)
  · rw [hkept _ hlines, hkept t rfl, Text.withReturns_eq_self_iff, IsRejoined]
    simp [hnone]

/-- Where the style shows in the documentation, it shows as in the comment. -/
theorem stripIndents_withReturns {t : Text} (h : Byte.carriageReturn ∉ t) (ht : ¬IsRejoined t) :
    stripIndents t.withReturns = (stripIndents t).withReturns := by
  rcases stripIndents_of_lines (lines t) with ⟨left, hstripped, -⟩ | ⟨-, hkept⟩
  · exact absurd (.inr ⟨left, hstripped⟩) ht
  · rw [hkept _ (lines_withReturns h), hkept t rfl]

theorem notMem_trim {b : UInt8} {t : Text} (h : b ∉ t) : b ∉ Text.trim isMargin t := by
  intro hmem
  rw [Text.trim, List.mem_reverse] at hmem
  have hfront := List.mem_reverse.mp (List.dropWhile_subset _ hmem)
  exact h (List.dropWhile_subset _ hfront)

/-- The documentation of a comment without carriage returns is the same in both styles exactly if
it is one line, or has indentation that is stripped. Otherwise it is written in the style of the
comment. -/
theorem ofComment_withReturns {comment : Text} (h : Byte.carriageReturn ∉ comment) :
    (ofComment comment.withReturns = ofComment comment ↔
        ∀ inner : Text, comment = "/**" ++ inner ++ "*/" → IsRejoined (Text.trim isMargin inner)) ∧
      (ofComment comment.withReturns ≠ ofComment comment →
        ofComment comment.withReturns = (ofComment comment).map Text.withReturns) := by
  by_cases hform : ∃ inner : Text, comment = "/**" ++ inner ++ "*/"
  · obtain ⟨inner, rfl⟩ := hform
    have hinner : Byte.carriageReturn ∉ inner := by
      intro hmem
      apply h
      simp [hmem]
    have hbody := notMem_trim hinner
    have honly (other : Text) : ("/**" : Text) ++ inner ++ "*/" = "/**" ++ other ++ "*/" ↔
        inner = other := by
      rw [List.append_left_inj, List.append_right_inj]
    have hall : (∀ other : Text, ("/**" : Text) ++ inner ++ "*/" = "/**" ++ other ++ "*/" →
        IsRejoined (Text.trim isMargin other)) ↔ IsRejoined (Text.trim isMargin inner) := by
      simp only [honly, forall_eq']
    rw [hall, withReturns_delimited, ofComment_delimited, ofComment_delimited, trim_withReturns]
    by_cases hempty : Text.trim isMargin inner = []
    · rw [hempty]
      simp [IsRejoined]
    · have hreturned : (Text.trim isMargin inner).withReturns ≠ [] := by
        intro hnil
        have hlength := Text.length_withReturns (Text.trim isMargin inner)
        rw [hnil, List.length_nil] at hlength
        exact hempty (List.length_eq_zero_iff.mp (by omega))
      rw [if_neg hempty, if_neg hreturned, ne_eq, Option.some_inj,
        stripIndents_withReturns_eq_iff hbody]
      exact ⟨Iff.rfl, fun hother => congrArg some (stripIndents_withReturns hbody hother)⟩
  · have hother := mt (exists_delimited_withReturns_iff h).mp hform
    have hsame : ofComment comment.withReturns = ofComment comment := by
      rw [ofComment_eq_none (not_exists.mp hform), ofComment_eq_none (not_exists.mp hother)]
    refine ⟨iff_of_true hsame fun inner hinner => ?_, fun hne => absurd hsame hne⟩
    exact absurd ⟨inner, hinner⟩ hform

/-- Between the delimiters of a comment, with a column of stars. -/
def starredLines : Text := "\n * The first line.\n *   The second one.\n "

theorem starredLines_withReturns :
    Byte.carriageReturn ∉ ("/**" : Text) ++ starredLines ++ "*/" ∧
      ofComment (Text.withReturns ("/**" ++ starredLines ++ "*/")) =
        some "The first line.\n  The second one." := by
  have hplain : Byte.carriageReturn ∉ ("/**" : Text) ++ starredLines ++ "*/" := by decide
  have hrejoined : IsRejoined (Text.trim isMargin starredLines) := by
    rcases stripIndents_cases (Text.trim isMargin starredLines) with ⟨hkept, -⟩ | ⟨left, -, hleft⟩
    · exact absurd hkept (by decide)
    · exact .inr ⟨left, hleft⟩
  have hsame := (ofComment_withReturns hplain).1.mpr fun inner hinner => by
    rw [List.append_left_inj, List.append_right_inj] at hinner
    rwa [← hinner]
  have hdocumentation : ofComment ("/**" ++ starredLines ++ "*/") =
      some "The first line.\n  The second one." := by decide
  exact ⟨hplain, hsame.trans hdocumentation⟩

/-- Two lines without indentation keep the line ending that is between them. -/
theorem exists_returned_documentation :
    ∃ comment, Byte.carriageReturn ∉ comment ∧
      ofComment comment.withReturns ≠ ofComment comment :=
  ⟨"/** a\nb */", by decide, by decide⟩

end Documentation

end AvroIdl
