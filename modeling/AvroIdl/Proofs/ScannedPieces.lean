import AvroIdl.Token.Lexeme
import Mathlib.Data.List.Infix
import Mathlib.Data.List.TakeWhile

/-!
# What the scanners read

Each piece of a source is a token with the text that its bytes write, whitespace or a complete
comment, or a problem. The scanners are told one by one from the bytes that they take.
-/
namespace AvroIdl

/-- A complete comment before the rest of a text: it goes up to the end of its line, or up to the
first star that is followed by a slash. -/
inductive IsComment : Text → (rest : Text) → Prop
  | line {body rest : Text} (oneLine : Byte.newline ∉ body)
      (ended : ∀ b ∈ rest.head?, b = Byte.newline) :
      IsComment (Byte.slash :: Byte.slash :: body) rest
  | block {inner rest : Text}
      (first : ¬[Byte.star, Byte.slash] <:+: inner ++ [Byte.star]) :
      IsComment (Byte.slash :: Byte.star :: (inner ++ [Byte.star, Byte.slash])) rest

/-- Whitespace and complete comments before the rest of a text. -/
inductive IsFiller : Text → (rest : Text) → Prop
  | nil {rest : Text} : IsFiller [] rest
  | space {b : UInt8} {t rest : Text} (space : Byte.isSpace b = true) (more : IsFiller t rest) :
      IsFiller (b :: t) rest
  | comment {c t rest : Text} (comment : IsComment c (t ++ rest)) (more : IsFiller t rest) :
      IsFiller (c ++ t) rest

namespace IsFiller

theorem of_comment {c rest : Text} (h : IsComment c rest) : IsFiller c rest := by
  rw [← List.append_nil c]
  exact .comment h .nil

theorem of_spaces {t rest : Text} (h : ∀ b ∈ t, Byte.isSpace b = true) : IsFiller t rest := by
  induction t with
  | nil => exact .nil
  | cons b t ih =>
    obtain ⟨hb, ht⟩ := List.forall_mem_cons.mp h
    exact .space hb (ih ht)

theorem append {s t rest : Text} (hs : IsFiller s (t ++ rest)) (ht : IsFiller t rest) :
    IsFiller (s ++ t) rest := by
  generalize hrest : t ++ rest = u at hs
  induction hs with
  | nil => exact ht
  | space hb hmore ih => exact .space hb (ih hrest)
  | comment hc hmore ih =>
    subst hrest
    rw [List.append_assoc]
    exact .comment (by rwa [List.append_assoc]) (ih rfl)

end IsFiller

/-- The text of a token is what its bytes write: a string literal stands between quotes, and the
backticks around parts of a name do not belong to it. -/
def Token.Kind.Writes (kind : Token.Kind) (text : Text) (escaped : Bool) (bytes : Text) : Prop :=
  if kind = .string then
    ∃ quote, (quote = Byte.doubleQuote ∨ quote = Byte.singleQuote) ∧
      bytes = quote :: text ++ [quote]
  else if escaped then kind = .identifier ∧ text = bytes.filter (· ≠ Byte.backtick)
  else text = bytes

namespace Lexeme

/-! ### Runs -/

theorem take_run (p : UInt8 → Bool) (s : Text) : s.take (run p s) = s.takeWhile p :=
  (List.prefix_iff_eq_take.mp (List.takeWhile_prefix p)).symm

theorem drop_run (p : UInt8 → Bool) (s : Text) : s.drop (run p s) = s.dropWhile p := by
  have hsplit : s.takeWhile p ++ s.dropWhile p = s := List.takeWhile_append_dropWhile
  calc
    s.drop (run p s) = (s.takeWhile p ++ s.dropWhile p).drop (s.takeWhile p).length := by
      rw [hsplit, run]
    _ = s.dropWhile p := List.drop_left

/-! ### Comments -/

theorem closeComment_eq_some {s : Text} {n : Nat} (h : closeComment s = some n) :
    ∃ inner rest, s = inner ++ [Byte.star, Byte.slash] ++ rest ∧ n = inner.length + 2 ∧
      ¬[Byte.star, Byte.slash] <:+: inner ++ [Byte.star] := by
  induction s generalizing n with
  | nil => cases h
  | cons c s ih =>
    rw [closeComment] at h
    split at h
    · next hends =>
      obtain ⟨rfl, hhead⟩ := hends
      obtain ⟨rest, rfl⟩ := List.head?_eq_some_iff.mp hhead
      cases h
      refine ⟨[], rest, rfl, rfl, ?_⟩
      simp [List.infix_cons_iff, Byte.star, Byte.slash]
    · next hgoes =>
      obtain ⟨m, hm, rfl⟩ := Option.map_eq_some_iff.mp h
      obtain ⟨inner, rest, rfl, rfl, hfirst⟩ := ih hm
      refine ⟨c :: inner, rest, rfl, rfl, ?_⟩
      rw [List.cons_append, List.infix_cons_iff]
      rintro (hstart | hlater)
      · obtain ⟨rfl, hnext⟩ := List.cons_prefix_cons.mp hstart
        apply hgoes
        refine ⟨rfl, ?_⟩
        cases inner with
        | nil => simp [Byte.star, Byte.slash] at hnext
        | cons d inner =>
          obtain ⟨rfl, -⟩ := List.cons_prefix_cons.mp hnext
          rfl
      · exact hfirst hlater

/-- A piece that is no token and no problem is whitespace or a complete comment. -/
def Shape.IsFiller : Shape → Prop
  | .blank | .comment | .doc => True
  | _ => False

/-- A comment that is complete goes up to the end of its line, or up to the first end that is found
for it. -/
theorem comment_eq_filler {s : Text} {shape : Shape} {n : Nat}
    (h : comment (Byte.slash :: s) = (shape, n)) (hshape : shape.IsFiller) :
    (∃ body, s = Byte.slash :: body ∧ shape = .comment ∧
        n = 2 + run (fun b => b != Byte.newline) body) ∨
      ∃ body k, s = Byte.star :: body ∧ closeComment body = some k ∧ n = k + 2 ∧
        shape = if body.head? = some Byte.star ∧ body.tail.head? ≠ some Byte.slash then .doc
          else if k + 2 > 4 then .comment else .blank := by
  unfold comment at h
  cases s with
  | nil =>
    cases h
    exact hshape.elim
  | cons c body =>
    simp only [List.drop_succ_cons, List.drop_zero] at h
    split at h
    · next hslash =>
      cases h
      exact .inl ⟨body, by rw [hslash], rfl, rfl⟩
    · split at h
      · next hstar =>
        split at h
        · cases h
          exact hshape.elim
        · next k hclose =>
          refine .inr ⟨body, k, by rw [hstar], hclose, ?_⟩
          split_ifs at h ⊢ <;> cases h <;> exact ⟨rfl, rfl⟩
      · cases h
        exact hshape.elim

theorem isComment_of_comment {s : Text} {shape : Shape} {n : Nat}
    (h : comment (Byte.slash :: s) = (shape, n)) (hshape : shape.IsFiller) :
    IsComment (Byte.slash :: s.take (n - 1)) (s.drop (n - 1)) := by
  rcases comment_eq_filler h hshape with ⟨body, rfl, -, rfl⟩ | ⟨body, k, rfl, hclose, rfl, -⟩
  · have hn : 2 + run (fun b => b != Byte.newline) body - 1 =
        run (fun b => b != Byte.newline) body + 1 := by omega
    rw [hn, List.take_succ_cons, List.drop_succ_cons, take_run, drop_run]
    refine .line (fun hmem => ?_) fun b hb => ?_
    · simpa using List.mem_takeWhile_imp hmem
    · have hstop := List.head?_dropWhile_not (fun b => b != Byte.newline) body
      rw [Option.mem_def.mp hb] at hstop
      simpa using hstop
  · obtain ⟨inner, rest, rfl, rfl, hfirst⟩ := closeComment_eq_some hclose
    have hn : inner.length + 2 + 2 - 1 = (inner ++ [Byte.star, Byte.slash]).length + 1 := by simp
    rw [hn, List.take_succ_cons, List.drop_succ_cons, List.take_left,
      List.drop_left]
    exact .block hfirst

/-! ### Names -/

/-- What is known of a name that has been read up to some bytes. -/
structure Spells (text : Text) (escaped : Bool) (bytes : Text) : Prop where
  text_eq : text = bytes.filter (· ≠ Byte.backtick)
  plain : escaped = false → Byte.backtick ∉ bytes

theorem isNamePart_ne_backtick {b : UInt8} (h : isNamePart b = true) : b ≠ Byte.backtick := by
  rintro rfl
  revert h
  decide

theorem spells_part {s : Text} (hs : s.head?.any fun b => isNameStart b || b == Byte.backtick)
    (h : (part s).closed = true) :
    1 ≤ (part s).length ∧
      Spells (part s).text (s.head? == some Byte.backtick) (s.take (part s).length) := by
  cases s with
  | nil => cases hs
  | cons b s =>
    unfold part at h ⊢
    dsimp only at h ⊢
    by_cases hb : b = Byte.backtick
    · subst hb
      rw [if_pos rfl] at h ⊢
      have htext : ∀ c ∈ s.takeWhile fun c => c != Byte.backtick && c != Byte.newline,
          c ≠ Byte.backtick := fun c hc => by
        have hp := List.mem_takeWhile_imp hc
        simp only [Bool.and_eq_true, bne_iff_ne] at hp
        exact hp.1
      have hsplit := List.take_append_drop
        (run (fun c => c != Byte.backtick && c != Byte.newline) s) s
      rw [take_run] at hsplit
      rw [run] at hsplit
      generalize s.takeWhile (fun c => c != Byte.backtick && c != Byte.newline) = text at *
      split at h
      · next hclosed =>
        rw [if_pos hclosed]
        obtain ⟨rest, hrest⟩ := List.head?_eq_some_iff.mp hclosed
        rw [hrest] at hsplit
        subst hsplit
        have htake : (Byte.backtick :: (text ++ Byte.backtick :: rest)).take (text.length + 2) =
            Byte.backtick :: (text ++ [Byte.backtick]) := by
          rw [List.take_succ_cons, List.take_append]
          simp
        refine ⟨by simp, ?_, by simp⟩
        rw [htake, List.filter_cons_of_neg (by simp), List.filter_append,
          List.filter_eq_self.mpr (by simpa using htext)]
        simp
      · cases h
    · rw [if_neg hb] at h ⊢
      have hpart : ∀ c ∈ s.takeWhile isNamePart, c ≠ Byte.backtick := fun c hc =>
        isNamePart_ne_backtick (List.mem_takeWhile_imp hc)
      have htake : (b :: s).take ((s.takeWhile isNamePart).length + 1) =
          b :: s.takeWhile isNamePart := by
        rw [List.take_succ_cons]
        exact congrArg _ (take_run isNamePart s)
      simp only [List.length_cons, htake]
      refine ⟨by omega, ?_, ?_⟩
      · rw [List.filter_eq_self.mpr]
        simpa [hb] using hpart
      · intro _ hmem
        rcases List.mem_cons.mp hmem with rfl | hmem
        · exact hb rfl
        · exact hpart _ hmem rfl

theorem Spells.append {t u a b : Text} {e f : Bool} (ht : Spells t e a) (hu : Spells u f b) :
    Spells (t ++ u) (e || f) (a ++ b) := by
  refine ⟨by rw [List.filter_append, ← ht.text_eq, ← hu.text_eq], fun h hmem => ?_⟩
  rw [Bool.or_eq_false_iff] at h
  rcases List.mem_append.mp hmem with hmem | hmem
  · exact ht.plain h.1 hmem
  · exact hu.plain h.2 hmem

theorem spells_nameFrom {s text text' read : Text} {escaped escaped' : Bool} {skipped n : Nat}
    {kind : Token.Kind} (hs : s.head?.any fun b => isNameStart b || b == Byte.backtick)
    (hread : Spells text escaped read)
    (h : nameFrom s text escaped skipped = (.token kind text' escaped', n)) :
    ∃ k, n = skipped + k ∧ 1 ≤ k ∧ Spells text' escaped' (read ++ s.take k) ∧
      kind = if escaped' || text'.contains Byte.dot then .identifier else wordKind text' := by
  fun_induction nameFrom s text escaped skipped generalizing read with
  | case1 =>
    rename_i s text escaped skipped p _ hclosed text₁ escaped₁ dot next rest hdrop hdot ih
    obtain ⟨rfl, hnext⟩ := hdot
    obtain ⟨hlong, hpart⟩ := spells_part hs hclosed
    have hspelt := (hread.append hpart).append (u := [Byte.dot]) (f := false) (b := [Byte.dot])
      ⟨rfl, by simp [Byte.dot, Byte.backtick]⟩
    rw [Bool.or_false] at hspelt
    obtain ⟨k, rfl, hk, hall, hkind⟩ := ih (by simpa using hnext) hspelt h
    refine ⟨p.length + 1 + k, by omega, by omega, ?_, hkind⟩
    have htake : s.take (p.length + 1 + k) =
        s.take p.length ++ [Byte.dot] ++ (next :: rest).take k := by
      rw [Nat.add_assoc, List.take_add, hdrop, Nat.add_comm 1 k, List.take_succ_cons]
      simp
    rw [htake]
    simpa only [List.append_assoc] using hall
  | case2 =>
    rename_i s text escaped skipped p _ hclosed text₁ escaped₁ whole dot next rest hdrop hdot
    obtain ⟨hlong, hpart⟩ := spells_part hs hclosed
    simp only [whole, Prod.mk.injEq, Shape.token.injEq] at h
    obtain ⟨⟨rfl, rfl, rfl⟩, rfl⟩ := h
    exact ⟨p.length, rfl, hlong, hread.append hpart, by simp [dite_eq_ite]⟩
  | case3 =>
    rename_i s text escaped skipped p _ hclosed text₁ escaped₁ whole hdrop
    obtain ⟨hlong, hpart⟩ := spells_part hs hclosed
    simp only [whole, Prod.mk.injEq, Shape.token.injEq] at h
    obtain ⟨⟨rfl, rfl, rfl⟩, rfl⟩ := h
    exact ⟨p.length, rfl, hlong, hread.append hpart, by simp [dite_eq_ite]⟩
  | case4 => cases h

theorem wordKind_ne (t : Text) : wordKind t ≠ .string ∧ wordKind t ≠ .endOfFile := by
  unfold wordKind
  split
  · simp
  · split <;> simp

/-! ### Numbers -/

theorem one_le_run {p : UInt8 → Bool} {b : UInt8} {s : Text} (h : p b = true) :
    1 ≤ run p (b :: s) := by
  simp [run, h]

theorem isNameStart_of_isDigit {b : UInt8} (h : Byte.isDigit b = true) :
    isNameStart b = false := by
  grind [Byte.isDigit, isNameStart, Byte.isAlpha, Byte.isUpper, Byte.isLower, Byte.underscore]

/-- A digit, or a dot before a digit, is part of the number that it starts. -/
theorem one_le_digits {b : UInt8} {s : Text}
    (h : Byte.isDigit b ∨ (b = Byte.dot ∧ s.head?.any Byte.isDigit)) : 1 ≤ (digits (b :: s)).2 := by
  have hstart : 1 ≤ run isDigitOrGap (b :: s) ∨
      run isDigitOrGap (b :: s) = 0 ∧ b = Byte.dot ∧ (!s.head?.any isNameStart) = true := by
    rcases h with hdigit | ⟨rfl, hdigit⟩
    · exact .inl (one_le_run (by simp [isDigitOrGap, hdigit]))
    · refine .inr ⟨rfl, rfl, ?_⟩
      cases s with
      | nil => rfl
      | cons c s => simpa using isNameStart_of_isDigit hdigit
  unfold digits
  split
  · dsimp only
    omega
  · dsimp only
    omega
  · dsimp only
    rcases hstart with hrun | ⟨hrun, rfl, hnext⟩
    · split
      · split
        · dsimp only
          omega
        · dsimp only
          split
          · split <;> dsimp only <;> omega
          · exact hrun
      · dsimp only
        split
        · split <;> dsimp only <;> omega
        · exact hrun
    · rw [hrun, List.drop_zero]
      simp only [hnext, and_self, if_true]
      split
      · split <;> dsimp only <;> omega
      · dsimp only
        omega

theorem digits_le_numeral (s : Text) : (digits s).2 ≤ (numeral s).2 := by
  unfold numeral
  dsimp only
  split
  · split_ifs <;> dsimp only <;> omega
  · exact Nat.le_refl _

theorem one_le_number {b : UInt8} {s : Text}
    (h : Byte.isDigit b ∨ (b = Byte.dot ∧ s.head?.any Byte.isDigit) ∨ b = Byte.minus) :
    1 ≤ (number (b :: s)).2 := by
  have hsign : 1 ≤ (if (b :: s).head? = some Byte.minus then 1 else 0) ∨
      (b :: s).drop (if (b :: s).head? = some Byte.minus then 1 else 0) = b :: s ∧
        (Byte.isDigit b ∨ (b = Byte.dot ∧ s.head?.any Byte.isDigit)) := by
    by_cases hb : b = Byte.minus
    · simp [hb]
    · simpa [hb] using h
  unfold number
  dsimp only
  generalize (if (b :: s).head? = some Byte.minus then 1 else 0) = sign at hsign
  rcases hsign with hsign | ⟨hbody, hb⟩
  · split <;> split <;> dsimp only <;> omega
  · rw [hbody]
    have hlength := (one_le_digits hb).trans (digits_le_numeral _)
    split
    · next hword =>
      have hrun : 1 ≤ run Byte.isAlpha (b :: s) := by
        apply one_le_run
        rcases hword with hword | hword <;> (cases hword; rfl)
      split <;> dsimp only <;> omega
    · split <;> dsimp only <;> omega

/-- The text of a number is all that was read of it. -/
theorem number_eq_token {s text : Text} {kind : Token.Kind} {escaped : Bool} {n : Nat}
    (h : number s = (.token kind text escaped, n)) :
    text = s.take n ∧ escaped = false ∧ (kind = .float ∨ kind = .integer) := by
  unfold number at h
  dsimp only at h
  generalize (if s.head? = some Byte.minus then 1 else 0) = sign at h
  split at h
  · split at h
    · cases h
      exact ⟨rfl, rfl, .inl rfl⟩
    · cases h
  · split at h
    · cases h
      refine ⟨rfl, rfl, ?_⟩
      split_ifs <;> simp
    · cases h

/-! ### String literals -/

/-- The bytes of a string literal are followed by its quote. -/
theorem quotedLength_closed {quote : UInt8} {s : Text} {n : Nat}
    (h : quotedLength quote s = (n, true)) : s[n]? = some quote := by
  fun_induction quotedLength quote s generalizing n with
  | case1 => cases h
  | case2 => cases h
  | case3 =>
    cases h
    rfl
  | case4 => cases h
  | case5 => cases h
  | case6 =>
    rename_i d s _ m closed _ _ _ ih
    simp only [Prod.mk.injEq] at h
    obtain ⟨rfl, rfl⟩ := h
    exact ih ‹_›
  | case7 =>
    rename_i c s _ _ _ m closed _ ih
    simp only [Prod.mk.injEq] at h
    obtain ⟨rfl, rfl⟩ := h
    exact ih ‹_›

theorem quoted_eq_token {quote : UInt8} {s text : Text} {kind : Token.Kind} {escaped : Bool}
    {n : Nat} (h : quoted quote (quote :: s) = (.token kind text escaped, n)) :
    kind = .string ∧ escaped = false ∧ 1 ≤ n ∧
      (quote :: s).take n = quote :: text ++ [quote] := by
  unfold quoted at h
  simp only [List.drop_succ_cons, List.drop_zero] at h
  split at h
  · next n hclosed =>
    cases h
    have hquote := quotedLength_closed hclosed
    refine ⟨rfl, rfl, by omega, ?_⟩
    rw [List.take_succ_cons, List.take_add_one, hquote]
    rfl
  · cases h

/-! ### The first piece of a text -/

/-- A name writes its bytes without backticks. -/
theorem writes_name {s text : Text} {kind : Token.Kind} {escaped : Bool} {n : Nat}
    (hs : s.head?.any fun b => isNameStart b || b == Byte.backtick)
    (h : nameFrom s [] false 0 = (.token kind text escaped, n)) :
    1 ≤ n ∧ kind ≠ .endOfFile ∧ kind.Writes text escaped (s.take n) := by
  have hnone : Spells [] false [] := ⟨rfl, by simp⟩
  obtain ⟨k, rfl, hk, hspelt, hkind⟩ := spells_nameFrom hs hnone h
  rw [List.nil_append] at hspelt
  rw [Nat.zero_add]
  obtain ⟨hstring, hend⟩ := wordKind_ne text
  unfold Token.Kind.Writes
  cases escaped with
  | true =>
    simp only [Bool.true_or, if_true] at hkind
    subst hkind
    exact ⟨hk, by simp, by simp [hspelt.text_eq]⟩
  | false =>
    have hplain : (s.take k).filter (· ≠ Byte.backtick) = s.take k := by
      rw [List.filter_eq_self]
      intro b hb
      simpa using fun he : b = Byte.backtick => hspelt.plain rfl (he ▸ hb)
    have htext : text = s.take k := hspelt.text_eq.trans hplain
    rw [Bool.false_or] at hkind
    refine ⟨hk, ?_, ?_⟩
    · rw [hkind]
      split
      · simp
      · exact hend
    · rw [if_neg]
      · exact htext
      · rw [hkind]
        split
        · simp
        · exact hstring

/-- A number writes its bytes. -/
theorem writes_number {b : UInt8} {s text : Text} {kind : Token.Kind} {escaped : Bool} {n : Nat}
    (hb : Byte.isDigit b ∨ (b = Byte.dot ∧ s.head?.any Byte.isDigit) ∨ b = Byte.minus)
    (h : number (b :: s) = (.token kind text escaped, n)) :
    1 ≤ n ∧ kind ≠ .endOfFile ∧ kind.Writes text escaped ((b :: s).take n) := by
  have hlong := one_le_number hb
  rw [h] at hlong
  obtain ⟨rfl, rfl, hkind⟩ := number_eq_token h
  refine ⟨hlong, ?_⟩
  rcases hkind with rfl | rfl <;> simp [Token.Kind.Writes]

theorem writes_quoted {quote : UInt8} {s text : Text} {kind : Token.Kind} {escaped : Bool} {n : Nat}
    (hquote : quote = Byte.doubleQuote ∨ quote = Byte.singleQuote)
    (h : quoted quote (quote :: s) = (.token kind text escaped, n)) :
    1 ≤ n ∧ kind ≠ .endOfFile ∧ kind.Writes text escaped ((quote :: s).take n) := by
  obtain ⟨rfl, rfl, hlong, hbytes⟩ := quoted_eq_token h
  exact ⟨hlong, by simp, by rw [Token.Kind.Writes, if_pos rfl]; exact ⟨quote, hquote, hbytes⟩⟩

theorem comment_ne_token {s text : Text} {kind : Token.Kind} {escaped : Bool} :
    (comment s).1 ≠ .token kind text escaped := by
  unfold comment
  split
  · simp
  · split
    · simp
    · split
      · split
        · simp
        · split_ifs <;> simp
      · simp

theorem nameFrom_not_filler (s text : Text) (escaped : Bool) (skipped : Nat) :
    ¬(nameFrom s text escaped skipped).1.IsFiller := by
  fun_induction nameFrom s text escaped skipped with
  | case1 => assumption
  | case2 => exact id
  | case3 => exact id
  | case4 => exact id

theorem number_not_filler (s : Text) : ¬(number s).1.IsFiller := by
  unfold number
  dsimp only
  generalize (if s.head? = some Byte.minus then 1 else 0) = sign
  split <;> split <;> exact id

theorem quoted_not_filler (quote : UInt8) (s : Text) : ¬(quoted quote s).1.IsFiller := by
  unfold quoted
  dsimp only
  split <;> exact id

theorem exists_token {b : UInt8} {s text : Text} {kind : Token.Kind} {escaped : Bool} {n : Nat}
    (h : first b s = (.token kind text escaped, n)) :
    1 ≤ n ∧ kind ≠ .endOfFile ∧ kind.Writes text escaped ((b :: s).take n) := by
  unfold first at h
  split at h
  · cases h
  · split at h
    · next hname => exact writes_name (by simpa using hname) h
    · split at h
      · next hnumber => exact writes_number (by tauto) h
      · split at h
        · next hquote => exact writes_quoted hquote h
        · split at h
          · next hminus => exact writes_number (.inr (.inr hminus.1)) h
          · split at h
            · exact absurd (congrArg Prod.fst h) comment_ne_token
            · split at h
              · next m _ =>
                cases h
                simp [Token.Kind.Writes]
              · cases h

/-- A piece that is no token and no problem is a run of whitespace, or the scanner for comments
reads it. -/
theorem first_eq_filler {b : UInt8} {s : Text} {shape : Shape} {n : Nat}
    (h : first b s = (shape, n)) (hshape : shape.IsFiller) :
    (Byte.isSpace b = true ∧ shape = .blank ∧ n = 1 + run Byte.isSpace s) ∨
      (b = Byte.slash ∧ comment (Byte.slash :: s) = (shape, n)) := by
  have hnot {x : Shape × Nat} (hx : x = (shape, n)) (hother : ¬x.1.IsFiller) : False :=
    hother (by rwa [hx])
  unfold first at h
  split at h
  · next hspace =>
    cases h
    exact .inl ⟨hspace, rfl, rfl⟩
  · split at h
    · exact (hnot h (nameFrom_not_filler _ _ _ _)).elim
    · split at h
      · exact (hnot h (number_not_filler _)).elim
      · split at h
        · exact (hnot h (quoted_not_filler _ _)).elim
        · split at h
          · exact (hnot h (number_not_filler _)).elim
          · split at h
            · next hslash =>
              subst hslash
              exact .inr ⟨rfl, h⟩
            · split at h <;> exact (hnot h id).elim

theorem take_and_drop (b : UInt8) (s : Text) {n : Nat} (hn : 1 ≤ n) :
    b :: s.take (n - 1) = (b :: s).take n ∧ s.drop (n - 1) = (b :: s).drop n := by
  obtain ⟨m, rfl⟩ := Nat.exists_eq_add_of_le' hn
  exact ⟨rfl, rfl⟩

/-- The text of a token is what its bytes write. -/
theorem writes_first {b : UInt8} {s text : Text} {kind : Token.Kind} {escaped : Bool} {n : Nat}
    (h : first b s = (.token kind text escaped, n)) :
    kind ≠ .endOfFile ∧ kind.Writes text escaped (b :: s.take (n - 1)) := by
  obtain ⟨hn, hkind, hwrites⟩ := exists_token h
  rw [(take_and_drop b s hn).1]
  exact ⟨hkind, hwrites⟩

/-- A piece that is no token and no problem is whitespace or a complete comment. -/
theorem filler_first {b : UInt8} {s : Text} {shape : Shape} {n : Nat}
    (h : first b s = (shape, n)) (hshape : shape.IsFiller) :
    AvroIdl.IsFiller (b :: s.take (n - 1)) (s.drop (n - 1)) := by
  rcases first_eq_filler h hshape with ⟨hspace, -, rfl⟩ | ⟨rfl, hcomment⟩
  · rw [Nat.add_sub_cancel_left, take_run]
    exact .of_spaces (List.forall_mem_cons.mpr ⟨hspace, fun c hc => List.mem_takeWhile_imp hc⟩)
  · exact .of_comment (isComment_of_comment hcomment hshape)

end Lexeme

end AvroIdl
