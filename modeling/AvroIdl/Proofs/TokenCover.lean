import AvroIdl.Proofs.ScannedPieces
import AvroIdl.Proofs.SourcePlaces
import AvroIdl.Token.Stream

/-!
# Tokens cover their source

Nothing of a source gets lost when it is read as tokens. The spans of the tokens stand in order,
each token says what its bytes write, every place counts the lines and characters before it, and
between the tokens of a source without problems there is nothing but whitespace and complete
comments.
-/
namespace AvroIdl

/-- The bytes of a span. -/
def Span.bytes (source : Text) (s : Span) : Text :=
  (source.take s.stop.offset).drop s.start.offset

namespace TokenStream

/-- Whitespace and complete comments fill a source from an offset up to the first token, and between
the tokens; after the last one there is nothing. -/
def FilledFrom (source : Text) : Nat → List Token → Prop
  | i, [] => i = source.length
  | i, t :: ts =>
    IsFiller ((source.take t.span.start.offset).drop i) (source.drop t.span.start.offset) ∧
      FilledFrom source t.span.stop.offset ts

/-- The spans of the tokens, the documentation comments and the problems. -/
def spans (stream : TokenStream) : List Span :=
  stream.tokens.map (·.span) ++ stream.docs.map (·.span) ++ stream.diagnostics.filterMap (·.span)

end TokenStream

namespace Lexeme

/-- The text is what remains of a source at a place. -/
def RemainsAt (source : Text) (l : Location) (s : Text) : Prop :=
  ∃ read, source.drop (markLength source) = read ++ s ∧ l = (startOf source).after read

namespace RemainsAt

variable {source s t : Text} {l : Location}

theorem start (source : Text) :
    RemainsAt source (startOf source) (source.drop (markLength source)) :=
  ⟨[], rfl, rfl⟩

theorem isIn (h : RemainsAt source l s) : l.IsIn source := by
  obtain ⟨read, hsource, rfl⟩ := h
  exact Location.isIn_after hsource

theorem next (h : RemainsAt source l (t ++ s)) : RemainsAt source (l.after t) s := by
  obtain ⟨read, hsource, rfl⟩ := h
  exact ⟨read ++ t, by rw [hsource, List.append_assoc], by rw [Location.after_append]⟩

theorem drop_offset (h : RemainsAt source l s) : source.drop l.offset = s := by
  obtain ⟨read, hsource, rfl⟩ := h
  rw [Location.offset_after, ← List.drop_drop, startOf, hsource, List.drop_left]

theorem offset_add (h : RemainsAt source l s) : l.offset + s.length = source.length := by
  have hlength := congrArg List.length h.drop_offset
  have hle := h.isIn.offset_le
  rw [List.length_drop] at hlength
  omega

/-- What has been read since an offset grows by what is read next. -/
theorem slice_next (h : RemainsAt source l (t ++ s)) {i : Nat} (hi : i ≤ l.offset) :
    (source.take (l.after t).offset).drop i = (source.take l.offset).drop i ++ t := by
  have hle := h.isIn.offset_le
  rw [Location.offset_after, List.take_add, h.drop_offset, List.take_left,
    List.drop_append_of_le_length (by simp; omega)]

end RemainsAt

/-- A piece stands at its place in the source. -/
theorem remainsAt_of_mem_cut {source s : Text} {l : Location} {x : Lexeme}
    (hl : RemainsAt source l s) (hx : x ∈ cut l s) :
    (∃ rest, RemainsAt source x.span.start (x.text ++ rest)) ∧
      x.span.stop = x.span.start.after x.text := by
  fun_induction cut l s with
  | case1 l => cases hx
  | case2 =>
    rename_i l b s shape n hfirst text stop ih
    have hsplit : b :: s = text ++ s.drop (n - 1) := by simp [text]
    rw [hsplit] at hl
    rcases List.mem_cons.mp hx with rfl | hx
    · exact ⟨⟨_, hl⟩, rfl⟩
    · exact ih hl.next hx

end Lexeme

namespace TokenStream

open Lexeme

/-- What the tokens from an offset on say of a source; if it is clean, whitespace and complete
comments stand between them. -/
inductive Covers (source : Text) (clean : Prop) : Nat → List Token → Prop
  | ended {i : Nat} {stop : Location} {doc : Option Nat} (reached : RemainsAt source stop [])
      (before : i ≤ stop.offset)
      (filled : clean → IsFiller ((source.take stop.offset).drop i) []) :
      Covers source clean i [{ kind := .endOfFile, span := ⟨stop, stop⟩, doc := doc }]
  | token {i : Nat} {t : Token} {ts : List Token} (known : t.kind ≠ .endOfFile)
      (before : i ≤ t.span.start.offset)
      (forward : t.span.start.offset < t.span.stop.offset)
      (start : t.span.start.IsIn source) (stop : t.span.stop.IsIn source)
      (written : t.kind.Writes t.text t.escaped (t.span.bytes source))
      (filled : clean →
        IsFiller ((source.take t.span.start.offset).drop i) (source.drop t.span.start.offset))
      (more : Covers source clean t.span.stop.offset ts) :
      Covers source clean i (t :: ts)

/-- The tokens of what remains of a source cover it from every offset up to which only whitespace
and comments have been read. -/
theorem covers_tokensOf {source s : Text} {clean : Prop} {l : Location} {pending : Option Nat}
    {docs i : Nat} (hl : RemainsAt source l s) (hi : i ≤ l.offset)
    (hfilled : clean → IsFiller ((source.take l.offset).drop i) s)
    (hclean : clean → ∀ x ∈ cut l s, ∀ p skipped, x.shape ≠ .problem p skipped) :
    Covers source clean i (tokensOf (l.after s) pending docs (cut l s)) := by
  fun_induction cut l s generalizing i pending docs with
  | case1 l => exact .ended hl hi hfilled
  | case2 =>
    rename_i l b s shape n hfirst text stop ih
    have hsplit : b :: s = text ++ s.drop (n - 1) := by simp [text]
    have hstop : l.after (b :: s) = stop.after (s.drop (n - 1)) := by
      rw [hsplit, Location.after_append]
    rw [hsplit] at hl
    have hnext : RemainsAt source stop (s.drop (n - 1)) := hl.next
    have hslice : (source.take stop.offset).drop i = (source.take l.offset).drop i ++ text :=
      hl.slice_next hi
    have hforward : stop.offset = l.offset + text.length := Location.offset_after l text
    have hlater : clean → ∀ x ∈ cut stop (s.drop (n - 1)), ∀ p skipped,
        x.shape ≠ .problem p skipped := fun hc x hx =>
      hclean hc x (List.mem_cons_of_mem _ hx)
    have hskip : shape.IsFiller → clean →
        IsFiller ((source.take stop.offset).drop i) (s.drop (n - 1)) := by
      intro hshape hc
      rw [hslice]
      exact .append (hsplit ▸ hfilled hc) (filler_first hfirst hshape)
    rw [hstop]
    cases shape with
    | blank => exact ih hnext (by omega) (hskip trivial) hlater
    | comment => exact ih hnext (by omega) (hskip trivial) hlater
    | doc => exact ih hnext (by omega) (hskip trivial) hlater
    | problem p skipped =>
      exact ih hnext (by omega)
        (fun hc => absurd rfl (hclean hc _ List.mem_cons_self p skipped)) hlater
    | token kind text' escaped =>
      obtain ⟨hkind, hwrites⟩ := writes_first hfirst
      have hbytes : Span.bytes source ⟨l, stop⟩ = text := by
        rw [Span.bytes, hl.slice_next (Nat.le_refl _)]
        simp
      refine .token hkind hi ?_ hl.isIn hnext.isIn ?_ ?_ ?_
      · simp [hforward, text]
      · rw [hbytes]
        exact hwrites
      · rw [hl.drop_offset, ← hsplit]
        exact hfilled
      · exact ih hnext (Nat.le_refl _) (fun _ => by simpa using IsFiller.nil) hlater

section Covers

variable {source : Text} {clean : Prop} {i : Nat} {ts : List Token}

theorem Covers.ended_by (h : Covers source clean i ts) :
    ∃ before last, ts = before ++ [last] ∧ last.kind = .endOfFile ∧
      last.span.start = last.span.stop ∧ last.span.stop.offset = source.length ∧
      ∀ t ∈ before, t.kind ≠ .endOfFile := by
  induction h with
  | ended reached before filled =>
    refine ⟨[], _, rfl, rfl, rfl, ?_, by simp⟩
    simpa using reached.offset_add
  | @token _ t ts known before forward start stop written filled more ih =>
    obtain ⟨initial, last, rfl, hkind, hempty, hsize, hothers⟩ := ih
    exact ⟨t :: initial, last, rfl, hkind, hempty, hsize,
      List.forall_mem_cons.mpr ⟨known, hothers⟩⟩

theorem Covers.isIn (h : Covers source clean i ts) :
    ∀ t ∈ ts, t.span.start.IsIn source ∧ t.span.stop.IsIn source := by
  induction h with
  | ended reached before filled =>
    simpa using reached.isIn
  | token known before forward start stop written filled more ih =>
    exact List.forall_mem_cons.mpr ⟨⟨start, stop⟩, ih⟩

theorem Covers.inside (h : Covers source clean i ts) :
    ∀ t ∈ ts, i ≤ t.span.start.offset ∧ t.span.start.offset ≤ t.span.stop.offset ∧
      t.span.stop.offset ≤ source.length := by
  induction h with
  | ended reached before filled =>
    simpa using ⟨before, reached.isIn.offset_le⟩
  | token known before forward start stop written filled more ih =>
    refine List.forall_mem_cons.mpr ⟨⟨before, by omega, stop.offset_le⟩, fun t ht => ?_⟩
    obtain ⟨hstart, hstop⟩ := ih t ht
    exact ⟨by omega, hstop⟩

theorem Covers.ordered (h : Covers source clean i ts) :
    ts.Pairwise fun t u => t.span.stop.offset ≤ u.span.start.offset := by
  induction h with
  | ended reached before filled => simp
  | token known before forward start stop written filled more ih =>
    exact List.pairwise_cons.mpr ⟨fun t ht => (more.inside t ht).1, ih⟩

/-- No two tokens start at the same place. -/
theorem Covers.starts (h : Covers source clean i ts) :
    ts.Pairwise fun t u => t.span.start.offset < u.span.start.offset := by
  induction h with
  | ended reached before filled => simp
  | token known before forward start stop written filled more ih =>
    exact List.pairwise_cons.mpr ⟨fun t ht => forward.trans_le (more.inside t ht).1, ih⟩

theorem Covers.written (h : Covers source clean i ts) :
    ∀ t ∈ ts, t.kind.Writes t.text t.escaped (t.span.bytes source) := by
  induction h with
  | ended reached before filled =>
    simp [Token.Kind.Writes, Span.bytes]
  | token known before forward start stop written filled more ih =>
    exact List.forall_mem_cons.mpr ⟨written, ih⟩

theorem Covers.filled (h : Covers source clean i ts) (hclean : clean) :
    FilledFrom source i ts := by
  induction h with
  | ended reached before filled =>
    refine ⟨?_, reached.offset_add⟩
    rw [reached.drop_offset]
    exact filled hclean
  | token known before forward start stop written filled more ih =>
    exact ⟨filled hclean, ih⟩

end Covers

theorem shape_ne_problem_of_diagnostics {file : Text} {xs : List Lexeme}
    (h : xs.filterMap (diagnostic? file) = []) {x : Lexeme} (hx : x ∈ xs) (p : Problem)
    (skipped : Nat) : x.shape ≠ .problem p skipped := by
  intro hshape
  have hnone := List.filterMap_eq_nil_iff.mp h x hx
  rw [diagnostic?, hshape] at hnone
  cases hnone

theorem ofSource_eq (source file : Text) :
    ofSource source file =
      { tokens := tokensOf ((startOf source).after (source.drop (markLength source))) none 0
          (cut (startOf source) (source.drop (markLength source)))
        docs := (cut (startOf source) (source.drop (markLength source))).filterMap doc?
        diagnostics :=
          (cut (startOf source) (source.drop (markLength source))).filterMap
            (diagnostic? file) } := by
  rw [ofSource, skipMark_eq]
  rfl

theorem covers_ofSource (source file : Text) :
    Covers source ((ofSource source file).diagnostics = []) (markLength source)
      (ofSource source file).tokens := by
  rw [ofSource_eq]
  refine covers_tokensOf (.start source) (Nat.le_refl _) (fun _ => ?_) fun h x hx p skipped => ?_
  · simpa [startOf] using IsFiller.nil
  · exact shape_ne_problem_of_diagnostics h hx p skipped

end TokenStream

end AvroIdl
