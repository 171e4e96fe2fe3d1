import AvroIdl.Proofs.ScannedAgain
import AvroIdl.Proofs.TokenCover

/-!
# Spacing

The tokens of a source without problems do not depend on how it is spaced. Their bytes may be
written one after another with any whitespace between them, in place of the whitespace and the
comments of the source, or of nothing at all.
-/
namespace AvroIdl

/-- What a token says: its kind, its text, and whether it has a part between backticks. -/
def Token.form (t : Token) : Token.Kind × Text × Bool := (t.kind, t.text, t.escaped)

/-- The bytes of the tokens in a source, in order, without the end of the file. -/
def TokenStream.words (stream : TokenStream) (source : Text) : List Text :=
  (stream.tokens.filter fun t => t.kind != .endOfFile).map fun t => t.span.bytes source

/-- A run of whitespace that is not empty. -/
structure IsGap (t : Text) : Prop where
  nonempty : t ≠ []
  space : ∀ b ∈ t, Byte.isSpace b = true

theorem IsGap.blank {gap : Text} (h : IsGap gap) (s : Text) : Lexeme.Blank (gap ++ s) := by
  obtain ⟨b, gap, rfl⟩ := List.exists_cons_of_ne_nil h.nonempty
  rintro c ⟨⟩
  exact h.space b List.mem_cons_self

/-- Words in order with a gap between each two of them. -/
inductive SpacedOut : List Text → Text → Prop
  | nil : SpacedOut [] []
  | last (word : Text) : SpacedOut [word] word
  | cons {word next gap s : Text} {words : List Text} (between : IsGap gap)
      (more : SpacedOut (next :: words) s) :
      SpacedOut (word :: next :: words) (word ++ (gap ++ s))

theorem SpacedOut.exists_append {word r : Text} {words : List Text}
    (h : SpacedOut (word :: words) r) : ∃ s, r = word ++ s := by
  cases h with
  | last => exact ⟨[], (List.append_nil word).symm⟩
  | cons between more => exact ⟨_, rfl⟩

namespace Lexeme

/-- What a piece says if it is a token. -/
def form? (x : Lexeme) : Option (Token.Kind × Text × Bool) :=
  match x.shape with
  | .token kind text escaped => some (kind, text, escaped)
  | _ => none

/-- The bytes of a piece if it is a token. -/
def word? (x : Lexeme) : Option Text := x.form?.map fun _ => x.text

/-- No piece is a problem. -/
def Clean (xs : List Lexeme) : Prop := ∀ x ∈ xs, ∀ p skipped, x.shape ≠ .problem p skipped

section Cut

variable {b : UInt8} {s t text word gap : Text} {l l' : Location} {kind : Token.Kind}
  {escaped : Bool} {n : Nat}

theorem clean_cons {x : Lexeme} {xs : List Lexeme} :
    Clean (x :: xs) ↔ (∀ p skipped, x.shape ≠ .problem p skipped) ∧ Clean xs :=
  List.forall_mem_cons

/-- A text without problems does not begin with a dot before a name. -/
theorem not_dotted_of_clean (h : Clean (cut l s)) : ¬Dotted s := by
  intro hs
  obtain ⟨b, rest, rfl⟩ : ∃ b rest, s = b :: rest := by
    obtain ⟨c, rest, rfl, -⟩ := hs
    exact ⟨_, _, rfl⟩
  rw [cut, first_of_dotted hs] at h
  exact (clean_cons.mp h).1 _ _ rfl

/-- A gap is one blank piece. -/
theorem cut_gap (hgap : IsGap gap) (hs : ∀ b ∈ s.head?, Byte.isSpace b = false) (l : Location) :
    cut l (gap ++ s) = ⟨.blank, gap, ⟨l, l.after gap⟩⟩ :: cut (l.after gap) s := by
  obtain ⟨b, gap, rfl⟩ := List.exists_cons_of_ne_nil hgap.nonempty
  obtain ⟨hb, hspace⟩ := List.forall_mem_cons.mp hgap.space
  have hrun : run Byte.isSpace (gap ++ s) = gap.length := run_append_iff.mpr ⟨hspace, hs⟩
  have hfirst : first b (gap ++ s) = (.blank, 1 + gap.length) := by
    rw [first, if_pos hb, hrun]
  rw [List.cons_append, cut, hfirst]
  simp

/-- A token stands alone before what ends there or goes on with a gap. -/
theorem cut_token (h : first b (word ++ t) = (.token kind text escaped, word.length + 1))
    (ht : ¬Dotted t) (hs : Blank s) (l : Location) :
    cut l (b :: word ++ s) =
      ⟨.token kind text escaped, b :: word, ⟨l, l.after (b :: word)⟩⟩ ::
        cut (l.after (b :: word)) s := by
  rw [List.cons_append, cut, first_append h ht hs]
  simp

theorem isSpace_of_first (h : first b s = (.token kind text escaped, n)) :
    Byte.isSpace b = false := by
  by_contra hspace
  rw [first, if_pos (by simpa using hspace)] at h
  cases h

/-- A token among the pieces was read from its bytes. -/
theorem first_of_mem_cut {x : Lexeme} (hx : x ∈ cut l s)
    (hshape : x.shape = .token kind text escaped) :
    ∃ b word t, x.text = b :: word ∧
      first b (word ++ t) = (.token kind text escaped, word.length + 1) := by
  fun_induction cut l s with
  | case1 => cases hx
  | case2 l b s shape n hfirst text' stop ih =>
    rcases List.mem_cons.mp hx with rfl | hx
    · have htoken : first b s = (.token kind text escaped, n) := by rw [hfirst, ← hshape]
      have hlong := (exists_token htoken).1
      have hlength := first_le_length htoken
      refine ⟨b, s.take (n - 1), s.drop (n - 1), rfl, ?_⟩
      rw [List.take_append_drop, htoken, List.length_take]
      congr
      omega
    · exact ih hx

theorem exists_of_word? {x : Lexeme} (h : x.word? = some word) :
    ∃ kind text escaped, x.shape = .token kind text escaped ∧ x.text = word := by
  obtain ⟨⟨kind, text, escaped⟩, hform, hword⟩ := Option.map_eq_some_iff.mp h
  unfold form? at hform
  split at hform
  · next kind' text' escaped' hshape => exact ⟨kind', text', escaped', hshape, hword⟩
  · cases hform

/-- The word of a token begins with no whitespace. -/
theorem head?_of_word?_cut (h : word ∈ (cut l s).filterMap word?) :
    ∃ b rest, word = b :: rest ∧ Byte.isSpace b = false := by
  obtain ⟨x, hx, hword⟩ := List.mem_filterMap.mp h
  obtain ⟨kind, text, escaped, hshape, rfl⟩ := exists_of_word? hword
  obtain ⟨b, rest, t, htext, hfirst⟩ := first_of_mem_cut hx hshape
  exact ⟨b, rest, htext, isSpace_of_first hfirst⟩

end Cut

/-- The words of a text without problems say the same wherever gaps stand between them. -/
theorem form?_cut_of_spacedOut {l : Location} {s r : Text} (hclean : Clean (cut l s))
    (hs : SpacedOut ((cut l s).filterMap word?) r) (l' : Location) :
    (cut l' r).filterMap form? = (cut l s).filterMap form? ∧ Clean (cut l' r) := by
  fun_induction cut l s generalizing r l' with
  | case1 =>
    cases hs
    rw [cut]
    exact ⟨rfl, by simp [Clean]⟩
  | case2 =>
    rename_i l b s shape n hfirst text stop ih
    obtain ⟨hshape, hlater⟩ := clean_cons.mp hclean
    cases shape with
    | blank => exact ih hlater hs l'
    | comment => exact ih hlater hs l'
    | doc => exact ih hlater hs l'
    | problem p skipped => exact absurd rfl (hshape p skipped)
    | token kind text' escaped =>
      have hlong := (exists_token hfirst).1
      have hlength := first_le_length hfirst
      have hword : first b (s.take (n - 1) ++ s.drop (n - 1)) =
          (.token kind text' escaped, (s.take (n - 1)).length + 1) := by
        rw [List.take_append_drop, hfirst, List.length_take]
        congr
        omega
      have hdotted := not_dotted_of_clean hlater
      -- what follows the word is read like the rest of the text, whether a gap comes first or not
      obtain ⟨rest, rfl, hblank, hrest⟩ : ∃ rest, r = text ++ rest ∧ Blank rest ∧
          ∀ l', (cut l' rest).filterMap form? = (cut stop (s.drop (n - 1))).filterMap form? ∧
            Clean (cut l' rest) := by
        have hwords : SpacedOut (text :: (cut stop (s.drop (n - 1))).filterMap word?) r := hs
        have hhead : ∀ word ∈ (cut stop (s.drop (n - 1))).filterMap word?,
            ∃ c tail, word = c :: tail ∧ Byte.isSpace c = false :=
          fun _ => head?_of_word?_cut
        generalize (cut stop (s.drop (n - 1))).filterMap word? = words at hwords ih hhead
        cases hwords with
        | last => exact ⟨[], (List.append_nil text).symm, by simp [Blank], ih hlater .nil⟩
        | cons between more =>
          rename_i next gap s' words
          obtain ⟨c, tail, rfl, hc⟩ := hhead next List.mem_cons_self
          obtain ⟨after, hafter⟩ := more.exists_append
          refine ⟨gap ++ s', rfl, between.blank s', fun l' => ?_⟩
          rw [cut_gap between (by rw [hafter]; simpa using hc)]
          obtain ⟨hforms, hclean'⟩ := ih hlater more (l'.after gap)
          exact ⟨hforms, clean_cons.mpr ⟨by simp, hclean'⟩⟩
      have hcut := cut_token hword hdotted hblank l'
      obtain ⟨hforms, hrest⟩ := hrest (l'.after (b :: s.take (n - 1)))
      rw [hcut]
      refine ⟨?_, clean_cons.mpr ⟨by simp, hrest⟩⟩
      simp only [List.filterMap_cons, form?, hforms]

theorem bytes_of_mem_cut {source s : Text} {l : Location} {x : Lexeme} (hl : RemainsAt source l s)
    (hx : x ∈ cut l s) : x.span.bytes source = x.text := by
  obtain ⟨⟨rest, hremains⟩, hstop⟩ := remainsAt_of_mem_cut hl hx
  rw [Span.bytes, hstop, hremains.slice_next (Nat.le_refl _)]
  simp

theorem kind_of_mem_cut {s text : Text} {l : Location} {x : Lexeme} {kind : Token.Kind}
    {escaped : Bool} (hx : x ∈ cut l s) (hshape : x.shape = .token kind text escaped) :
    kind ≠ .endOfFile := by
  obtain ⟨b, word, t, -, hfirst⟩ := first_of_mem_cut hx hshape
  exact (writes_first hfirst).1

end Lexeme

namespace TokenStream

open Lexeme

theorem form_tokensOf (stop : Location) (pending : Option Nat) (docs : Nat) (xs : List Lexeme) :
    (tokensOf stop pending docs xs).map Token.form =
      xs.filterMap form? ++ [(.endOfFile, [], false)] := by
  induction xs generalizing pending docs with
  | nil => rfl
  | cons x xs ih =>
    obtain ⟨shape, text, span⟩ := x
    cases shape with
    | blank => exact ih pending docs
    | comment => exact ih none docs
    | doc => exact ih (some docs) (docs + 1)
    | problem p skipped => exact ih pending docs
    | token kind text' escaped => exact congrArg _ (ih none docs)

theorem words_tokensOf {source : Text} (stop : Location) (pending : Option Nat) (docs : Nat)
    {xs : List Lexeme} (hbytes : ∀ x ∈ xs, x.span.bytes source = x.text)
    (hkinds : ∀ x ∈ xs, ∀ kind text escaped, x.shape = .token kind text escaped →
      kind ≠ .endOfFile) :
    ((tokensOf stop pending docs xs).filter fun t => t.kind != .endOfFile).map
      (fun t => t.span.bytes source) = xs.filterMap word? := by
  induction xs generalizing pending docs with
  | nil => rfl
  | cons x xs ih =>
    obtain ⟨hx, hrest⟩ := List.forall_mem_cons.mp hbytes
    obtain ⟨hkind, hothers⟩ := List.forall_mem_cons.mp hkinds
    obtain ⟨shape, text, span⟩ := x
    cases shape with
    | blank => exact ih pending docs hrest hothers
    | comment => exact ih none docs hrest hothers
    | doc => exact ih (some docs) (docs + 1) hrest hothers
    | problem p skipped => exact ih pending docs hrest hothers
    | token kind text' escaped =>
      have hne : (kind != .endOfFile) = true := by simpa using hkind kind text' escaped rfl
      have hword : word? ⟨.token kind text' escaped, text, span⟩ = some text := rfl
      have hstep : tokensOf stop pending docs (⟨.token kind text' escaped, text, span⟩ :: xs) =
          ⟨kind, span, text', escaped, pending⟩ :: tokensOf stop none docs xs := rfl
      rw [hstep, List.filter_cons_of_pos (by exact hne), List.map_cons, ih none docs hrest hothers,
        List.filterMap_cons_some hword, hx]

theorem words_ofSource (source file : Text) :
    (ofSource source file).words source =
      (cut (startOf source) (source.drop (markLength source))).filterMap word? := by
  rw [words, ofSource_eq]
  apply words_tokensOf
  · intro x hx
    exact bytes_of_mem_cut (.start source) hx
  · intro x hx kind text escaped
    exact kind_of_mem_cut hx

theorem diagnostics_eq_nil_iff (source file : Text) :
    (ofSource source file).diagnostics = [] ↔
      Clean (cut (startOf source) (source.drop (markLength source))) := by
  rw [ofSource_eq, List.filterMap_eq_nil_iff]
  constructor
  · intro h x hx p skipped hshape
    have hnone := h x hx
    rw [diagnostic?, hshape] at hnone
    cases hnone
  · intro h x hx
    unfold diagnostic?
    split
    · next p skipped hshape => exact absurd hshape (h x hx p skipped)
    · rfl

/-- A space at the start of a source leaves what stands there as it is, a byte order mark among
it. -/
theorem markLength_space (s : Text) : markLength (Byte.space :: s) = 0 := rfl

/-- The tokens of a source without problems, written with any gaps between them, are read again. -/
theorem ofSource_of_spacedOut {source s : Text} (file file' : Text)
    (hclean : (ofSource source file).diagnostics = [])
    (hs : SpacedOut ((ofSource source file).words source) s) :
    (ofSource (Byte.space :: s) file').diagnostics = [] ∧
      (ofSource (Byte.space :: s) file').tokens.map Token.form =
        (ofSource source file).tokens.map Token.form := by
  rw [diagnostics_eq_nil_iff] at hclean ⊢
  rw [words_ofSource] at hs
  have hhead : ∀ b ∈ s.head?, Byte.isSpace b = false := by
    have hwords : ∀ word ∈ (cut (startOf source) (source.drop (markLength source))).filterMap word?,
        ∃ c tail, word = c :: tail ∧ Byte.isSpace c = false :=
      fun _ => head?_of_word?_cut
    generalize (cut (startOf source) (source.drop (markLength source))).filterMap word? = words
      at hs hwords
    cases words with
    | nil =>
      cases hs
      simp
    | cons word words =>
      obtain ⟨c, tail, rfl, hc⟩ := hwords word List.mem_cons_self
      obtain ⟨rest, rfl⟩ := hs.exists_append
      simpa using hc
  have hgap : IsGap [Byte.space] := ⟨by simp, by simp [Byte.isSpace, Byte.space]⟩
  have hpieces := cut_gap hgap hhead (startOf (Byte.space :: s))
  obtain ⟨hforms, hagain⟩ :=
    form?_cut_of_spacedOut hclean hs ((startOf (Byte.space :: s)).after [Byte.space])
  rw [List.singleton_append] at hpieces
  rw [ofSource_eq, ofSource_eq, form_tokensOf, form_tokensOf, markLength_space, List.drop_zero,
    hpieces]
  refine ⟨clean_cons.mpr ⟨by simp, hagain⟩, ?_⟩
  have hblank : form? ⟨.blank, [Byte.space],
      ⟨startOf (Byte.space :: s), (startOf (Byte.space :: s)).after [Byte.space]⟩⟩ = none := rfl
  rw [List.filterMap_cons_none hblank, hforms]

/-- Neighbours with nothing or a comment between them. -/
def denseSource : Text := "-Infinity7L:1.5e-3.25/**/a.`b-c`\"x\\\"y\",0x1F.5"

/-- The same tokens with gaps. -/
def looseSource : Text := "-Infinity 7L\n:  1.5e-3\t.25 a.`b-c` \"x\\\"y\" , 0x1F .5"

theorem looseSource_tokens :
    (ofSource denseSource "a.avdl").diagnostics = [] ∧
      SpacedOut ((ofSource denseSource "a.avdl").words denseSource) looseSource ∧
      (ofSource (Byte.space :: looseSource) "b.avdl").diagnostics = [] ∧
      (ofSource (Byte.space :: looseSource) "b.avdl").tokens.map Token.form =
        (ofSource denseSource "a.avdl").tokens.map Token.form := by
  have hclean : (ofSource denseSource "a.avdl").diagnostics = [] := by
    rw [← List.isEmpty_iff]
    decide +kernel
  have hwords : (ofSource denseSource "a.avdl").words denseSource =
      ["-Infinity", "7L", ":", "1.5e-3", ".25", "a.`b-c`", "\"x\\\"y\"", ",", "0x1F", ".5"] := by
    decide +kernel
  have hloose : looseSource = ("-Infinity" : Text) ++ (" " ++ ("7L" ++ ("\n" ++ (":" ++ ("  " ++
      ("1.5e-3" ++ ("\t" ++ (".25" ++ (" " ++ ("a.`b-c`" ++ (" " ++ ("\"x\\\"y\"" ++
        (" " ++ ("," ++ (" " ++ ("0x1F" ++ (" " ++ ".5"))))))))))))))))) := by
    decide
  have hspace : IsGap " " := ⟨by decide, List.all_eq_true.mp (by decide)⟩
  have hspaces : IsGap "  " := ⟨by decide, List.all_eq_true.mp (by decide)⟩
  have hnewline : IsGap "\n" := ⟨by decide, List.all_eq_true.mp (by decide)⟩
  have htab : IsGap "\t" := ⟨by decide, List.all_eq_true.mp (by decide)⟩
  have hspaced : SpacedOut ((ofSource denseSource "a.avdl").words denseSource) looseSource := by
    rw [hwords, hloose]
    exact .cons hspace (.cons hnewline (.cons hspaces (.cons htab (.cons hspace (.cons hspace
      (.cons hspace (.cons hspace (.cons hspace (.last _)))))))))
  exact ⟨hclean, hspaced, ofSource_of_spacedOut "a.avdl" "b.avdl" hclean hspaced⟩

end TokenStream

end AvroIdl
