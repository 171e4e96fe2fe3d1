import AvroIdl.Proofs.EditDistance
import AvroIdl.Proofs.TokenSpacing
import AvroIdl.Tree.Cursor
import Mathlib.Data.List.Chain

/-!
# Readable syntax errors

The readable form of a syntax error is made from its plain message, in which the text of the token
stands as it was written. The plain message is still read back as it was put together: the list of
what was expected contains no quote before a space, so the last divider is the one that was written,
and no entry of the list contains the separator of the entries.
-/
namespace AvroIdl

namespace Text

/-- A first byte that is never followed at once by a second one. -/
abbrev Apart (a b : UInt8) (t : Text) : Prop := t.IsChain fun x y => ¬(x = a ∧ y = b)

section Cutting

variable {a b : UInt8} {pattern s t : Text}

theorem splitAtLast_eq_none (h : ¬pattern <:+: t) : splitAtLast pattern t = none := by
  have hstart {t : Text} (h : ¬pattern <+: t) : dropStart pattern t = none := by
    rw [Option.eq_none_iff_forall_ne_some]
    intro rest hrest
    exact h ⟨rest, (dropStart_eq_some_iff.mp hrest).symm⟩
  induction t with
  | nil => simp [splitAtLast, hstart fun hp => h hp.isInfix]
  | cons c t ih =>
    have ht := ih fun hinfix => h (List.infix_cons hinfix)
    have hhere := hstart fun hp => h hp.isInfix
    simp [splitAtLast, ht, hhere]

/-- The last occurrence is the one after which none begins. -/
theorem splitAtLast_append (hpattern : pattern ≠ []) (h : ¬pattern <:+: (pattern ++ t).tail) :
    splitAtLast pattern (s ++ (pattern ++ t)) = some (s, t) := by
  induction s with
  | nil =>
    have hfirst : dropStart pattern (pattern ++ t) = some t := dropStart_eq_some_iff.mpr rfl
    obtain ⟨c, rest, rfl⟩ := List.exists_cons_of_ne_nil hpattern
    have hnone := splitAtLast_eq_none h
    simp only [List.cons_append, List.tail_cons] at hnone hfirst
    simp [splitAtLast, hnone, hfirst]
  | cons c s ih => simp [splitAtLast, ih]

theorem splitPair_of_apart (h : Apart a b t) : splitPair a b t = [t] := by
  induction t with
  | nil => rfl
  | cons c t ih =>
    cases t with
    | nil => rfl
    | cons d t =>
      obtain ⟨hpair, ht⟩ := List.isChain_cons_cons.mp h
      rw [splitPair, if_neg hpair, ih ht]

theorem splitPair_append (hne : a ≠ b) (h : Apart a b s) (t : Text) :
    splitPair a b (s ++ a :: b :: t) = s :: splitPair a b t := by
  induction s with
  | nil => simp [splitPair]
  | cons c s ih =>
    cases s with
    | nil =>
      have hpair : ¬(c = a ∧ a = b) := fun hp => hne hp.2
      rw [List.singleton_append, splitPair, if_neg hpair]
      simp [splitPair]
    | cons d s =>
      obtain ⟨hpair, hs⟩ := List.isChain_cons_cons.mp h
      have hrest := ih hs
      rw [List.cons_append] at hrest
      rw [List.cons_append, List.cons_append, splitPair, if_neg hpair, hrest]

/-- Entries without the separator are the pieces of what they are joined to. -/
theorem splitPair_join (hne : a ≠ b) {es : List Text} (hes : es ≠ [])
    (h : ∀ e ∈ es, Apart a b e) : splitPair a b (join [a, b] es) = es := by
  induction es with
  | nil => exact absurd rfl hes
  | cons e es ih =>
    obtain ⟨he, hrest⟩ := List.forall_mem_cons.mp h
    cases es with
    | nil => exact splitPair_of_apart he
    | cons e' es =>
      have hsplit := ih (List.cons_ne_nil _ _) hrest
      rw [join, List.append_assoc, List.cons_append, List.cons_append, List.nil_append,
        splitPair_append hne he, hsplit]
      simp

/-- Joining makes no pair whose bytes do not occur that way in the separator. -/
theorem apart_join {c d : UInt8} (hc : b ≠ c) (hd : a ≠ d) (hsep : Apart a b [c, d])
    {es : List Text} (h : ∀ e ∈ es, Apart a b e) : Apart a b (join [c, d] es) := by
  induction es with
  | nil => exact .nil
  | cons e es ih =>
    obtain ⟨he, hrest⟩ := List.forall_mem_cons.mp h
    cases es with
    | nil => exact he
    | cons e' es =>
      have hfirst : Apart a b (e ++ [c, d]) := by
        apply List.isChain_append.mpr
        exact ⟨he, hsep, by simp [Ne.symm hc]⟩
      rw [join]
      · apply List.isChain_append.mpr
        exact ⟨hfirst, ih hrest, by simp [Ne.symm hd]⟩
      · simp

end Cutting

end Text

open Text

namespace Mismatch

/-! ### The plain message -/

/-- How the expected entries are written in the plain message. -/
def written : List Text → Text
  | [e] => e
  | es => [Byte.leftBrace] ++ join ", " es ++ [Byte.rightBrace]

theorem message_eq (m : Mismatch) :
    m.message = opening ++ (m.actual ++ (divider ++ written m.expected)) := by
  rw [message, List.append_assoc, List.append_assoc]
  rfl

/-- A text that may be listed in a plain message: it is not taken for a list, and neither the
separator of a list nor the divider begins in it. -/
structure IsEntry (e : Text) : Prop where
  nonempty : e ≠ []
  unbraced : e.head? ≠ some Byte.leftBrace
  unlisted : Apart Byte.comma Byte.space e
  undivided : Apart Byte.singleQuote Byte.space e

theorem isEntry_describeKind (k : Token.Kind) : IsEntry (describeKind k) := by
  cases k with
  | keyword k => cases k <;> exact ⟨by decide, by decide, by decide, by decide⟩
  | mark m => cases m <;> exact ⟨by decide, by decide, by decide, by decide⟩
  | _ => exact ⟨by decide, by decide, by decide, by decide⟩

section Entries

variable {es : List Text} (hes : ∀ e ∈ es, IsEntry e)

include hes

theorem apart_written : Apart Byte.singleQuote Byte.space (written es) := by
  unfold written
  split
  · next e => exact (hes e List.mem_cons_self).undivided
  · have hjoin : Apart Byte.singleQuote Byte.space (join ", " es) := by
      apply apart_join (by decide) (by decide) (by decide)
      exact fun e he => (hes e he).undivided
    have hopen : Apart Byte.singleQuote Byte.space ([Byte.leftBrace] ++ join ", " es) := by
      apply List.isChain_append.mpr
      exact ⟨.singleton _, hjoin, by simp [Byte.leftBrace, Byte.singleQuote]⟩
    apply List.isChain_append.mpr
    exact ⟨hopen, .singleton _, by simp [Byte.rightBrace, Byte.space]⟩

/-- No divider begins after the one that was written. -/
theorem splitAtLast_divider (actual : Text) :
    splitAtLast divider (actual ++ (divider ++ written es)) = some (actual, written es) := by
  apply splitAtLast_append (by decide)
  intro hinfix
  -- the divider begins with a quote and a space, which nothing after its first byte does
  have hafter : Apart Byte.singleQuote Byte.space (divider.tail ++ written es) := by
    apply List.isChain_append.mpr
    exact ⟨by decide, apart_written hes, by simp [divider, ofAscii, Byte.singleQuote]⟩
  have hdivider : Apart Byte.singleQuote Byte.space divider := hafter.infix hinfix
  revert hdivider
  decide

theorem entries_written : entries (written es) = es := by
  unfold written
  split
  · next e =>
    have hplain := (hes e List.mem_cons_self).unbraced
    rw [entries, if_neg fun h => hplain h.2.1]
  · have hends : ([Byte.leftBrace] ++ join ", " es ++ [Byte.rightBrace]).getLast? =
        some Byte.rightBrace := List.getLast?_concat
    have hinner : (([Byte.leftBrace] ++ join ", " es ++ [Byte.rightBrace]).drop 1).dropLast =
        join ", " es := by simp
    rw [entries, if_pos ⟨by simp, rfl, hends⟩, hinner]
    by_cases hnone : es = []
    · rw [hnone]
      rfl
    · have hsplit : splitPair Byte.comma Byte.space (join ", " es) = es :=
        splitPair_join (by decide) hnone fun e he => (hes e he).unlisted
      rw [hsplit]
      apply List.filter_eq_self.mpr
      intro e he
      simpa using (hes e he).nonempty

end Entries

/-- A plain message is read back as it was put together, whatever the token in it is. -/
theorem ofMessage?_message {m : Mismatch} (h : ∀ e ∈ m.expected, IsEntry e) :
    ofMessage? m.message = some m := by
  have hstart : dropStart opening m.message =
      some (m.actual ++ (divider ++ written m.expected)) := by
    rw [dropStart_eq_some_iff, message_eq]
  simp only [ofMessage?, hstart, splitAtLast_divider h, entries_written h]

/-! ### The entries in words -/

/-- How an expected kind of token is named to a reader. -/
def inWords : Token.Kind → Text
  | .endOfFile => "end of file"
  | .identifier => "identifier"
  | .integer => "integer literal"
  | .float => "floating-point literal"
  | .string => "string literal"
  | .keyword k => "'" ++ k.text ++ "'"
  | .mark m => "'" ++ [m.byte] ++ "'"

/-- The readable form of a kind in a list: two or more type keywords have one form in common. -/
def formIn (kinds : List Token.Kind) (k : Token.Kind) : Text :=
  if 2 ≤ kinds.countP Token.Kind.isType ∧ k.isType then "type name" else inWords k

/-- The distinct texts of a list, in the order in which they first occur. -/
structure AreFirsts (es forms : List Text) : Prop where
  mem_iff : ∀ e, e ∈ forms ↔ e ∈ es
  ordered : forms.Pairwise fun e e' => es.idxOf e < es.idxOf e'

theorem isTypeEntry_describeKind (k : Token.Kind) : isTypeEntry (describeKind k) = k.isType := by
  cases k with
  | keyword k => cases k <;> decide
  | mark m => cases m <;> decide
  | _ => decide

theorem rename_describeKind (k : Token.Kind) : rename (describeKind k) = inWords k := by
  cases k with
  | keyword k => cases k <;> decide
  | mark m => cases m <;> decide
  | _ => decide

theorem readableEntries_map_describeKind (kinds : List Token.Kind) :
    readableEntries (kinds.map describeKind) = distinct (kinds.map (formIn kinds)) := by
  have hcount : (kinds.map describeKind).countP isTypeEntry = kinds.countP Token.Kind.isType := by
    rw [List.countP_map]
    congr
    funext k
    exact isTypeEntry_describeKind k
  rw [readableEntries, List.map_map, hcount]
  congr
  funext k
  simp [isTypeEntry_describeKind, rename_describeKind, formIn, Nat.lt_iff_add_one_le]

theorem distinct_concat (es : List Text) (e : Text) :
    distinct (es ++ [e]) =
      if (distinct es).contains e then distinct es else distinct es ++ [e] := by
  rw [distinct, List.foldl_append]
  rfl

theorem areFirsts_distinct (es : List Text) : AreFirsts es (distinct es) := by
  induction es using List.reverseRecOn with
  | nil => exact ⟨fun e => Iff.rfl, .nil⟩
  | append_singleton es e ih =>
    have hkept : (distinct es).Pairwise fun x y => (es ++ [e]).idxOf x < (es ++ [e]).idxOf y := by
      apply ih.ordered.imp_of_mem
      intro x y hx hy hlt
      rwa [List.idxOf_append_of_mem ((ih.mem_iff x).mp hx),
        List.idxOf_append_of_mem ((ih.mem_iff y).mp hy)]
    rw [distinct_concat]
    split
    · next hseen =>
      have he : e ∈ es := (ih.mem_iff e).mp (List.contains_iff_mem.mp hseen)
      refine ⟨fun x => ?_, hkept⟩
      rw [ih.mem_iff, List.mem_append, List.mem_singleton]
      constructor
      · exact .inl
      · rintro (hx | rfl)
        · exact hx
        · exact he
    · next hnew =>
      have he : e ∉ es := fun he => hnew (List.contains_iff_mem.mpr ((ih.mem_iff e).mpr he))
      constructor
      · intro x
        rw [List.mem_append, List.mem_append, ih.mem_iff]
      · apply List.pairwise_append.mpr
        refine ⟨hkept, List.pairwise_singleton _ _, fun x hx y hy => ?_⟩
        rw [List.mem_singleton.mp hy]
        have hx := (ih.mem_iff x).mp hx
        have hlt := List.idxOf_lt_length_iff.mpr hx
        rw [List.idxOf_append_of_mem hx, List.idxOf_append_of_notMem he]
        omega

/-! ### The list -/

/-- A text that lists entries, and says how many more there are. -/
inductive Lists : (shown : List Text) → (more : Nat) → Text → Prop
  | nothing : Lists [] 0 []
  | one (e : Text) : Lists [e] 0 (", expected " ++ e)
  | several {shown : List Text} (two : 2 ≤ shown.length) :
      Lists shown 0 (", expected one of: " ++ join ", " shown)
  | cut {shown : List Text} {more : Nat} (two : 2 ≤ shown.length) (positive : 0 < more) :
      Lists shown more
        (", expected one of: " ++ join ", " shown ++ (" ... and " ++ ofNat more ++ " more"))

theorem lists_listing (es : List Text) : Lists (es.take 8) (es.length - 8) (listing es) := by
  match es with
  | [] => exact .nothing
  | [e] => exact .one e
  | e :: e' :: es =>
    have htwo : 2 ≤ ((e :: e' :: es).take 8).length := by simp
    have hlisting : listing (e :: e' :: es) =
        ", expected one of: " ++ join ", " ((e :: e' :: es).take 8) ++
          if 8 < (e :: e' :: es).length then
            " ... and " ++ ofNat ((e :: e' :: es).length - 8) ++ " more"
          else [] := rfl
    rw [hlisting]
    split
    · next hlong => exact .cut htwo (Nat.sub_pos_of_lt hlong)
    · next hshort =>
      rw [Nat.sub_eq_zero_of_le (Nat.le_of_not_lt hshort), List.append_nil]
      exact .several htwo

/-! ### The hint -/

/-- A text that offers nothing, or an expected keyword, or an expected keyword that the token begins
with, set apart from the rest of it. -/
inductive Hints (t : Token) (kinds : List Token.Kind) : Text → Prop
  | nothing : Hints t kinds []
  | keyword {k : Keyword} (listed : .keyword k ∈ kinds) :
      Hints t kinds (" (did you mean '" ++ k.text ++ "'?)")
  | apart {k : Keyword} {rest : Text} (listed : .keyword k ∈ kinds)
      (glued : describe t = k.text ++ rest) :
      Hints t kinds (" (did you mean '" ++ (k.text ++ " " ++ rest) ++ "'?)")

theorem exists_of_mem_keywords {kinds : List Token.Kind} {word : Text}
    (h : word ∈ keywords (kinds.map describeKind)) : ∃ k, .keyword k ∈ kinds ∧ k.text = word := by
  obtain ⟨e, he, rfl⟩ := List.mem_map.mp h
  obtain ⟨hlisted, hquoted⟩ := List.mem_filter.mp he
  obtain ⟨kind, hkind, rfl⟩ := List.mem_map.mp hlisted
  cases kind with
  | keyword k =>
    refine ⟨k, hkind, ?_⟩
    have hinner : (describeKind (.keyword k)).drop 1 = k.text ++ [Byte.singleQuote] := rfl
    rw [hinner, List.dropLast_concat]
  | mark m => cases hquoted
  | _ => exact absurd hquoted (by decide)

theorem exists_of_unglue {actual word : Text} {words : List Text}
    (h : unglue actual words = some word) :
    ∃ k ∈ words, ∃ rest, actual = k ++ rest ∧ word = k ++ " " ++ rest := by
  obtain ⟨k, -, hk⟩ := List.exists_of_findSome?_eq_some h
  split at hk
  · next b rest hrest =>
    split at hk
    · next hlisted =>
      cases hk
      simp only [Bool.and_eq_true, List.contains_iff_mem] at hlisted
      exact ⟨k, hlisted.1, b :: rest, dropStart_eq_some_iff.mp hrest, rfl⟩
    · cases hk
  · cases hk

theorem mem_of_closest {name word : Text} {words : List Text}
    (h : Distance.closest name words = some word) : word ∈ words := by
  have hchosen := Distance.chosen_closest name words
  rw [h] at hchosen
  obtain ⟨before, after, rfl, -⟩ := hchosen
  simp

theorem hints_readable (t : Token) (kinds : List Token.Kind) :
    Hints t kinds
      (match (unglue (describe t) (keywords (kinds.map describeKind))).or
          (Distance.closest (describe t) (keywords (kinds.map describeKind))) with
        | some word => " (did you mean '" ++ word ++ "'?)"
        | none => []) := by
  split
  · next word hword =>
    rcases Option.or_eq_some_iff.mp hword with hunglue | ⟨-, hclosest⟩
    · obtain ⟨text, htext, rest, hglued, rfl⟩ := exists_of_unglue hunglue
      obtain ⟨k, hk, rfl⟩ := exists_of_mem_keywords htext
      exact .apart hk hglued
    · obtain ⟨k, hk, rfl⟩ := exists_of_mem_keywords (mem_of_closest hclosest)
      exact .keyword hk
  · exact .nothing

/-! ### The token -/

/-- How the token that was found is named to a reader. -/
def found (t : Token) : Text :=
  if t.kind = .endOfFile then "unexpected end of file" else "unexpected '" ++ describe t ++ "'"

/-- No token that is read at a `<` has more bytes than that one. -/
theorem describe_ne_of_first {b : UInt8} {s text : Text} {kind : Token.Kind} {escaped : Bool}
    {n : Nat} (h : Lexeme.first b s = (.token kind text escaped, n)) (span : Span)
    (doc : Option Nat) : describe ⟨kind, span, text, escaped, doc⟩ ≠ "<EOF>" := by
  obtain ⟨hkind, hwrites⟩ := Lexeme.writes_first h
  intro hdescribe
  unfold describe at hdescribe
  split at hdescribe
  · next hend => exact hkind hend
  · cases hdescribe
  · next hstring =>
    split at hdescribe
    · cases hdescribe
    · next hplain =>
      have hbytes : text = b :: s.take (n - 1) := by
        rw [Token.Kind.Writes, if_neg hstring, if_neg hplain] at hwrites
        exact hwrites
      have hb : b = 0x3C := by
        rw [hbytes] at hdescribe
        exact (List.cons.inj hdescribe).1
      have hmark : Mark.ofByte? b = some .lessThan := by
        rw [hb]
        rfl
      rw [Lexeme.first_of_mark hmark] at h
      cases h
      cases hdescribe

/-- Only the end of the file is shown as one. -/
theorem describe_eq_iff {source file : Text} {t : Token}
    (ht : t ∈ (TokenStream.ofSource source file).tokens) :
    describe t = "<EOF>" ↔ t.kind = .endOfFile := by
  obtain ⟨kind, span, text, escaped, doc⟩ := t
  rw [TokenStream.ofSource_eq] at ht
  have hform : Token.form _ ∈ List.map Token.form _ := List.mem_map_of_mem ht
  rw [TokenStream.form_tokensOf] at hform
  rcases List.mem_append.mp hform with hpiece | hend
  · obtain ⟨x, hx, hform⟩ := List.mem_filterMap.mp hpiece
    unfold Lexeme.form? at hform
    split at hform
    · next kind' text' escaped' hshape =>
      cases hform
      obtain ⟨b, word, rest, -, hfirst⟩ := Lexeme.first_of_mem_cut hx hshape
      have hkind := (Lexeme.writes_first hfirst).1
      have hdescribe := describe_ne_of_first hfirst span doc
      exact iff_of_false hdescribe hkind
    · cases hform
  · cases List.mem_singleton.mp hend
    exact iff_of_true rfl rfl

/-- A syntax error keeps saying what its plain message says, whatever the token is: the token, and
the first eight of the distinct kinds in words with the number of the others. Any text that is no
mismatch is kept. -/
theorem enrich_faithful :
    (∀ source file : Text, ∀ t ∈ (TokenStream.ofSource source file).tokens,
      ∀ kinds : List Token.Kind, ∃ (forms : List Text) (more : Nat) (list hint : Text),
        AreFirsts (kinds.map (formIn kinds)) forms ∧
        (forms.take 8).length + more = forms.length ∧ Lists (forms.take 8) more list ∧
        Hints t kinds hint ∧
        enrich (SyntaxProblem.mismatch t kinds).message = found t ++ list ++ hint) ∧
    ∀ text : Text, ¬opening <+: text → enrich text = text := by
  constructor
  · intro source file t ht kinds
    have hforms := areFirsts_distinct (kinds.map (formIn kinds))
    have hlists := lists_listing (distinct (kinds.map (formIn kinds)))
    have hhints := hints_readable t kinds
    have hcount : ((distinct (kinds.map (formIn kinds))).take 8).length +
        ((distinct (kinds.map (formIn kinds))).length - 8) =
          (distinct (kinds.map (formIn kinds))).length := by
      rw [List.length_take]
      omega
    have hmessage : enrich (SyntaxProblem.mismatch t kinds).message =
        (ofToken t kinds).readable := by
      have hentries : ∀ e ∈ (ofToken t kinds).expected, IsEntry e :=
        List.forall_mem_map.mpr fun k _ => isEntry_describeKind k
      rw [SyntaxProblem.message, enrich, ofMessage?_message hentries]
    refine ⟨_, _, _, _, hforms, hcount, hlists, hhints, ?_⟩
    rw [hmessage, readable]
    simp only [ofToken, describe_eq_iff ht, readableEntries_map_describeKind]
    rfl
  · intro text htext
    have hnone : ofMessage? text = none := by
      unfold ofMessage?
      split
      · rfl
      · next rest hrest => exact absurd ⟨rest, (dropStart_eq_some_iff.mp hrest).symm⟩ htext
    rw [enrich, hnone]

/-- A string literal that reads like the end of another plain message. -/
def deceptiveSource : Text := "\"' expecting \x7b'int', 'map'\x7d\""

def deceptiveToken : Token where
  kind := .string
  span := ⟨{}, ⟨1, 29, 28⟩⟩
  text := "' expecting \x7b'int', 'map'\x7d"

theorem deceptiveToken_readable :
    deceptiveToken ∈ (TokenStream.ofSource deceptiveSource "a.avdl").tokens ∧
      (∃ (forms : List Text) (more : Nat) (list hint : Text),
        AreFirsts ([.keyword .int, .identifier, .keyword .string].map
          (formIn [.keyword .int, .identifier, .keyword .string])) forms ∧
        (forms.take 8).length + more = forms.length ∧ Lists (forms.take 8) more list ∧
        Hints deceptiveToken [.keyword .int, .identifier, .keyword .string] hint ∧
        enrich (SyntaxProblem.mismatch deceptiveToken
          [.keyword .int, .identifier, .keyword .string]).message =
            found deceptiveToken ++ list ++ hint) ∧
      ¬opening <+: ("Unterminated string literal." : Text) ∧
      enrich "Unterminated string literal." = "Unterminated string literal." := by
  have htoken : deceptiveToken ∈ (TokenStream.ofSource deceptiveSource "a.avdl").tokens := by
    decide +kernel
  have hother : ¬opening <+: ("Unterminated string literal." : Text) := by
    decide
  have hreadable := enrich_faithful.1 deceptiveSource "a.avdl" deceptiveToken htoken
    [.keyword .int, .identifier, .keyword .string]
  exact ⟨htoken, hreadable, hother, enrich_faithful.2 _ hother⟩

example : enrich (SyntaxProblem.mismatch deceptiveToken
    [.keyword .int, .identifier, .keyword .string]).message =
      "unexpected '\"' expecting \x7b'int', 'map'\x7d\"'" ++
        ", expected one of: type name, identifier" := by
  decide +kernel

end Mismatch

end AvroIdl
