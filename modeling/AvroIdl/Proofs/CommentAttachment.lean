import AvroIdl.Proofs.CommentAccount
import Mathlib.Order.Bounds.Basic

/-!
# The token that a comment stands before

In a source without problems a token carries the last documentation comment since the token before
it, if there is nothing else than whitespace and empty comments between that comment and the token.
Any other comment in between takes it away from the token, and nothing gives it back.
-/
namespace AvroIdl

/-- Whitespace and empty comments. -/
inductive IsVoid : Text → Prop
  | nil : IsVoid []
  | space {b : UInt8} {t : Text} (space : Byte.isSpace b = true) (more : IsVoid t) : IsVoid (b :: t)
  | empty {t : Text} (more : IsVoid t) :
      IsVoid (Byte.slash :: Byte.star :: Byte.star :: Byte.slash :: t)

/-- The text has something else in it that no text after it can complete. -/
def IsSpoilt (t : Text) : Prop := ∀ more, ¬IsVoid (t ++ more)

theorem isVoid_cons_iff_of_space {b : UInt8} {t : Text} (hb : Byte.isSpace b = true) :
    IsVoid (b :: t) ↔ IsVoid t := by
  constructor
  · intro h
    cases h with
    | space _ more => exact more
    | empty _ => exact absurd hb (by decide)
  · exact .space hb

theorem isVoid_slash_iff {t : Text} : IsVoid (Byte.slash :: t) ↔
    ∃ rest, t = Byte.star :: Byte.star :: Byte.slash :: rest ∧ IsVoid rest := by
  constructor
  · intro h
    cases h with
    | space hb _ => exact absurd hb (by decide)
    | empty more => exact ⟨_, rfl, more⟩
  · rintro ⟨rest, rfl, more⟩
    exact .empty more

theorem IsVoid.of_spaces {t : Text} (h : ∀ b ∈ t, Byte.isSpace b = true) : IsVoid t := by
  induction t with
  | nil => exact .nil
  | cons b t ih =>
    obtain ⟨hb, ht⟩ := List.forall_mem_cons.mp h
    exact .space hb (ih ht)

section Void

variable {s t : Text}

theorem IsVoid.append_iff (h : IsVoid s) : IsVoid (s ++ t) ↔ IsVoid t := by
  induction h with
  | nil => rfl
  | space hb _ ih => rw [List.cons_append, isVoid_cons_iff_of_space hb, ih]
  | empty _ ih => simp [isVoid_slash_iff, ih]

theorem IsVoid.append_spoilt (hs : IsVoid s) (ht : IsSpoilt t) : IsSpoilt (s ++ t) := by
  intro more
  rw [List.append_assoc, hs.append_iff]
  exact ht more

theorem IsSpoilt.append (h : IsSpoilt s) : IsSpoilt (s ++ t) := by
  intro more
  rw [List.append_assoc]
  exact h _

theorem IsSpoilt.not_void (h : IsSpoilt s) : ¬IsVoid s := by
  simpa using h []

end Void

namespace Lexeme

variable {b : UInt8} {s : Text} {n : Nat}

/-- A blank piece is a run of whitespace or an empty comment. -/
theorem void_first (h : first b s = (.blank, n)) : IsVoid (b :: s.take (n - 1)) := by
  rcases first_eq_filler h trivial with ⟨hspace, -, rfl⟩ | ⟨rfl, hcomment⟩
  · rw [Nat.add_sub_cancel_left, take_run]
    exact .of_spaces (List.forall_mem_cons.mpr ⟨hspace, fun c hc => List.mem_takeWhile_imp hc⟩)
  · rcases comment_eq_filler hcomment trivial with
      ⟨body, -, hshape, -⟩ | ⟨body, k, rfl, hclose, rfl, hshape⟩
    · cases hshape
    · obtain ⟨inner, rest, rfl, rfl, -⟩ := closeComment_eq_some hclose
      obtain rfl : inner = [] := by
        split_ifs at hshape with hdoc hlong
        exact List.length_eq_zero_iff.mp (by omega)
      exact .empty .nil

/-- A comment that ends at the first end, but not at once, does not start with an end. -/
theorem not_prefix_of_first {inner more : Text} (hne : inner ≠ [])
    (hfirst : ¬[Byte.star, Byte.slash] <:+: inner ++ [Byte.star]) :
    ¬[Byte.star, Byte.slash] <+: inner ++ [Byte.star, Byte.slash] ++ more := by
  rcases inner with _ | ⟨c, _ | ⟨d, inner⟩⟩
  · exact absurd rfl hne
  · simp +decide
  · intro hprefix
    simp only [List.cons_append, List.cons_prefix_cons] at hprefix
    obtain ⟨rfl, rfl, -⟩ := hprefix
    exact hfirst ⟨[], inner ++ [Byte.star], rfl⟩

/-- A comment that is not for documentation and not empty is not an empty comment with more after
it either, as the scanner stops at the first end. -/
theorem spoilt_first (h : first b s = (.comment, n)) : IsSpoilt (b :: s.take (n - 1)) := by
  rcases first_eq_filler h trivial with ⟨-, hshape, -⟩ | ⟨rfl, hcomment⟩
  · cases hshape
  intro more hvoid
  obtain ⟨after, hbytes, -⟩ := isVoid_slash_iff.mp hvoid
  rcases comment_eq_filler hcomment trivial with
    ⟨body, rfl, -, rfl⟩ | ⟨body, k, rfl, hclose, rfl, hshape⟩
  · have hn : 2 + run (fun b => b != Byte.newline) body - 1 =
        run (fun b => b != Byte.newline) body + 1 := by omega
    rw [hn, List.take_succ_cons] at hbytes
    exact absurd (List.cons_eq_cons.mp hbytes).1 (by decide)
  · obtain ⟨inner, rest, rfl, rfl, hfirst⟩ := closeComment_eq_some hclose
    have hn : inner.length + 2 + 2 - 1 = (inner ++ [Byte.star, Byte.slash]).length + 1 := by simp
    rw [hn, List.take_succ_cons, List.take_left] at hbytes
    have hne : inner ≠ [] := by
      rintro rfl
      simp at hshape
    exact not_prefix_of_first hne hfirst ⟨after, (List.cons_eq_cons.mp hbytes).2.symm⟩

end Lexeme

/-- The span lies between two offsets. -/
def Span.Within (s : Span) (i j : Nat) : Prop := i ≤ s.start.offset ∧ s.stop.offset ≤ j

namespace TokenStream

open Lexeme

/-- The comment with this number is the last one between two offsets. -/
def IsLast (docs : List DocComment) (i j d : Nat) : Prop :=
  IsGreatest {e | ∃ c ∈ docs[e]?, c.span.Within i j} d

/-- The comment with this number is the last one between two offsets of a source, and from it to the
second offset there are only whitespace and empty comments. -/
def Precedes (source : Text) (docs : List DocComment) (i j d : Nat) : Prop :=
  IsLast docs i j d ∧ ∃ c ∈ docs[d]?, IsVoid ((source.take j).drop c.span.stop.offset)

/-- From an offset on each token carries the comment that precedes it since the token before it. -/
def AttachedFrom (source : Text) (docs : List DocComment) : Nat → List Token → Prop
  | _, [] => True
  | i, t :: ts =>
    (∀ d, t.doc = some d ↔ Precedes source docs i t.span.start.offset d) ∧
      AttachedFrom source docs t.span.stop.offset ts

/-- The tokens of a source carry exactly the comments that precede them. -/
structure Attaches (source : Text) (stream : TokenStream) : Prop where
  attached : AttachedFrom source stream.docs 0 stream.tokens
  /-- Later comments have greater numbers. -/
  ordered : (stream.docs.map (·.span)).Pairwise fun a b => a.start.offset < b.start.offset
  increasing : (stream.tokens.filterMap (·.doc)).Pairwise (· < ·)
  once : ∀ d, stream.tokens.countP (·.doc == some d) ≤ 1

section Last

variable {source : Text} {init later : List DocComment} {c : DocComment} {i j d : Nat}

theorem isLast_iff (hc : c.span.Within i j) (hlater : ∀ c' ∈ later, ¬c'.span.Within i j) :
    IsLast (init ++ c :: later) i j d ↔ d = init.length := by
  have hlast : IsLast (init ++ c :: later) i j init.length := by
    refine ⟨⟨c, by simp, hc⟩, ?_⟩
    rintro e ⟨c', hc', hwithin⟩
    by_contra hbeyond
    obtain ⟨k, rfl⟩ : ∃ k, e = init.length + 1 + k := ⟨e - (init.length + 1), by omega⟩
    have hin : later[k]? = some c' := by
      simpa [List.getElem?_append_right, Nat.add_assoc, Nat.add_comm 1 k] using hc'
    exact hlater c' (List.mem_of_getElem? hin) hwithin
  exact ⟨fun h => h.unique hlast, fun h => h ▸ hlast⟩

theorem precedes_iff (hc : c.span.Within i j) (hlater : ∀ c' ∈ later, ¬c'.span.Within i j) :
    Precedes source (init ++ c :: later) i j d ↔
      d = init.length ∧ IsVoid ((source.take j).drop c.span.stop.offset) := by
  rw [Precedes, isLast_iff hc hlater]
  refine and_congr_right ?_
  rintro rfl
  simp

end Last

/-- The comment that the next token after an offset will carry if it starts there: the last one that
has been seen since the token before it, unless something else came after it. -/
inductive Waits (source : Text) (seen : List DocComment) (i j : Nat) : Option Nat → Prop
  | idle (old : ∀ c ∈ seen, c.span.start.offset < i) : Waits source seen i j none
  | last {init : List DocComment} {c : DocComment} (split : seen = init ++ [c])
      (new : i ≤ c.span.start.offset)
      (void : IsVoid ((source.take j).drop c.span.stop.offset)) :
      Waits source seen i j (some init.length)
  | spoilt {init : List DocComment} {c : DocComment} (split : seen = init ++ [c])
      (new : i ≤ c.span.start.offset)
      (spoilt : IsSpoilt ((source.take j).drop c.span.stop.offset)) :
      Waits source seen i j none

namespace Waits

variable {source t : Text} {seen later : List DocComment} {i j k : Nat} {pending : Option Nat}

/-- The comment that waits at the start of a token is the one that precedes it. -/
theorem precedes_iff (h : Waits source seen i j pending)
    (hseen : ∀ c ∈ seen, c.span.stop.offset ≤ j) (hlater : ∀ c ∈ later, j < c.span.stop.offset)
    (d : Nat) : pending = some d ↔ Precedes source (seen ++ later) i j d := by
  have hbeyond : ∀ c ∈ later, ¬c.span.Within i j := fun c hc hwithin =>
    absurd hwithin.2 (Nat.not_le_of_lt (hlater c hc))
  cases h with
  | idle old =>
    refine iff_of_false (by simp) ?_
    rintro ⟨⟨⟨c, hc, hwithin⟩, -⟩, -⟩
    rcases List.mem_append.mp (List.mem_of_getElem? hc) with hc | hc
    · exact absurd hwithin.1 (Nat.not_le_of_lt (old c hc))
    · exact hbeyond c hc hwithin
  | @last init c split new void =>
    subst split
    rw [List.append_assoc, List.singleton_append,
      TokenStream.precedes_iff ⟨new, hseen c (by simp)⟩ hbeyond, Option.some.injEq, eq_comm]
    exact (and_iff_left void).symm
  | @spoilt init c split new spoilt =>
    subst split
    rw [List.append_assoc, List.singleton_append,
      TokenStream.precedes_iff ⟨new, hseen c (by simp)⟩ hbeyond]
    exact iff_of_false (by simp) fun hvoid => spoilt.not_void hvoid.2

/-- What is void does not change which comment waits. -/
theorem pass (h : Waits source seen i j pending) (ht : IsVoid t)
    (hslice : ∀ c ∈ seen, (source.take k).drop c.span.stop.offset =
      (source.take j).drop c.span.stop.offset ++ t) : Waits source seen i k pending := by
  cases h with
  | idle old => exact .idle old
  | last split new void =>
    refine .last split new ?_
    rw [hslice _ (by simp [split]), void.append_iff]
    exact ht
  | spoilt split new spoilt =>
    refine .spoilt split new ?_
    rw [hslice _ (by simp [split])]
    exact spoilt.append

/-- After something else no comment waits. -/
theorem spoil (h : Waits source seen i j pending) (ht : IsSpoilt t)
    (hslice : ∀ c ∈ seen, (source.take k).drop c.span.stop.offset =
      (source.take j).drop c.span.stop.offset ++ t) : Waits source seen i k none := by
  cases h with
  | idle old => exact .idle old
  | last split new void =>
    refine .spoilt split new ?_
    rw [hslice _ (by simp [split])]
    exact void.append_spoilt ht
  | spoilt split new spoilt =>
    refine .spoilt split new ?_
    rw [hslice _ (by simp [split])]
    exact spoilt.append

end Waits

/-- The comments among the pieces of a text lie after the place where it starts. -/
theorem le_offset_of_mem_docs {source s : Text} {l : Location} {c : DocComment}
    (hl : RemainsAt source l s) (hc : c ∈ (cut l s).filterMap doc?) :
    l.offset ≤ c.span.stop.offset := by
  obtain ⟨x, hx, hdoc⟩ := List.mem_filterMap.mp hc
  obtain ⟨-, hstop⟩ := remainsAt_of_mem_cut hl hx
  rw [span_of_doc? hdoc, hstop, Location.offset_after]
  exact (le_offset_of_mem_cut hx).trans (Nat.le_add_right _ _)

/-- The tokens of what remains of a source carry the comments that precede them. The comments seen
so far lie before what remains, and the one that waits is known. -/
theorem attached_tokensOf {source s : Text} {l : Location} {pending : Option Nat}
    {seen : List DocComment} {i : Nat} (hl : RemainsAt source l s) (hi : i ≤ l.offset)
    (hseen : ∀ c ∈ seen, c.span.start.offset ≤ l.offset ∧ c.span.stop.offset ≤ l.offset)
    (hwaits : Waits source seen i l.offset pending)
    (hclean : ∀ x ∈ cut l s, ∀ p skipped, x.shape ≠ .problem p skipped) :
    AttachedFrom source (seen ++ (cut l s).filterMap doc?) i
      (tokensOf (l.after s) pending seen.length (cut l s)) := by
  fun_induction cut l s generalizing i pending seen with
  | case1 l => exact ⟨hwaits.precedes_iff (fun c hc => (hseen c hc).2) (by simp), trivial⟩
  | case2 =>
    rename_i l b s shape n hfirst text stop ih
    have hsplit : b :: s = text ++ s.drop (n - 1) := by simp [text]
    have hstop : l.after (b :: s) = stop.after (s.drop (n - 1)) := by
      rw [hsplit, Location.after_append]
    rw [hsplit] at hl
    have hnext : RemainsAt source stop (s.drop (n - 1)) := hl.next
    have hforward : l.offset < stop.offset := by
      rw [show stop = l.after text from rfl, Location.offset_after]
      simp [text]
    have hslice : ∀ c ∈ seen, (source.take stop.offset).drop c.span.stop.offset =
        (source.take l.offset).drop c.span.stop.offset ++ text :=
      fun c hc => hl.slice_next (hseen c hc).2
    have hread : ∀ c ∈ seen, c.span.start.offset ≤ stop.offset ∧ c.span.stop.offset ≤ stop.offset :=
      fun c hc => ⟨(hseen c hc).1.trans hforward.le, (hseen c hc).2.trans hforward.le⟩
    have hlater : ∀ x ∈ cut stop (s.drop (n - 1)), ∀ p skipped, x.shape ≠ .problem p skipped :=
      fun x hx => hclean x (List.mem_cons_of_mem _ hx)
    rw [hstop]
    cases shape with
    | blank =>
      exact ih hnext (hi.trans hforward.le) hread (hwaits.pass (void_first hfirst) hslice) hlater
    | comment =>
      exact ih hnext (hi.trans hforward.le) hread (hwaits.spoil (spoilt_first hfirst) hslice) hlater
    | doc =>
      let c : DocComment := ⟨text, ⟨l, stop⟩⟩
      have hnone : (source.take stop.offset).drop stop.offset = [] :=
        List.drop_eq_nil_of_le (List.length_take_le _ _)
      have hlast : Waits source (seen ++ [c]) i stop.offset (some seen.length) :=
        .last rfl hi (hnone ▸ .nil)
      have hall : ∀ c' ∈ seen ++ [c],
          c'.span.start.offset ≤ stop.offset ∧ c'.span.stop.offset ≤ stop.offset := by
        refine List.forall_mem_append.mpr ⟨hread, ?_⟩
        simpa [c] using hforward.le
      have hattached := ih hnext (hi.trans hforward.le) hall hlast hlater
      rw [List.length_append, List.append_assoc] at hattached
      exact hattached
    | problem p skipped => exact absurd rfl (hclean _ List.mem_cons_self p skipped)
    | token kind text' escaped =>
      rw [List.filterMap_cons_none rfl]
      refine ⟨hwaits.precedes_iff (fun c hc => (hseen c hc).2) fun c hc => ?_, ?_⟩
      · exact hforward.trans_le (le_offset_of_mem_docs hnext hc)
      · exact ih hnext (Nat.le_refl _) hread
          (.idle fun c hc => (hseen c hc).1.trans_lt hforward) hlater

/-- In a source without problems a token carries a documentation comment exactly if it is the last
one before the token and nothing but whitespace and empty comments stands between them. -/
theorem attaches_ofSource {source file : Text} (h : (ofSource source file).diagnostics = []) :
    (ofSource source file).Attaches source := by
  have hincreasing : ((ofSource source file).tokens.filterMap (·.doc)).Pairwise (· < ·) := by
    rw [ofSource_eq]
    exact (docs_tokensOf _ none 0 _ (by simp)).1
  refine ⟨?_, ordered_docs source file, hincreasing, fun d => ?_⟩
  · rw [ofSource_eq] at h ⊢
    have hnone : Waits source [] 0 (startOf source).offset none := .idle (by simp)
    exact attached_tokensOf (.start source) (Nat.zero_le _) (by simp) hnone
      fun x hx => shape_ne_problem_of_diagnostics h hx
  · have hcount : (ofSource source file).tokens.countP (·.doc == some d) =
        ((ofSource source file).tokens.filterMap (·.doc)).count d := by
      rw [List.count, List.countP_filterMap]
      congr 1
      funext t
      cases t.doc <;> simp
    rw [hcount]
    exact List.nodup_iff_count_le_one.mp (hincreasing.imp Nat.ne_of_lt) d

/-- Two comments of which the second one stands before a name, and one that a comment takes away. -/
def commentedSource : Text :=
  "/** a */ /** b */ /**/ record R \x7b /** c */ // d\n int x; /***/ /**/\n \x7d /** e */"

theorem commentedSource_attaches :
    (ofSource commentedSource "r.avdl").Attaches commentedSource ∧
      (ofSource commentedSource "r.avdl").tokens.filterMap (·.doc) = [1, 3, 4] := by
  have hclean : (ofSource commentedSource "r.avdl").diagnostics.isEmpty = true := by
    decide +kernel
  exact ⟨attaches_ofSource (List.isEmpty_iff.mp hclean), by decide +kernel⟩

end TokenStream

end AvroIdl
