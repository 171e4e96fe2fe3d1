import AvroIdl.Proofs.EscapeGrammar
import AvroIdl.Proofs.TokenCover

/-!
# Texts between quotes

Every text can be written between quotes, with simple escapes for the bytes that could not stand
there: it is read as one string literal, and decoded to itself. Reading and decoding agree on what a
backslash takes along, so no literal of a source ends within an escape of one byte.
-/
namespace AvroIdl.Literal

/-- A byte as it is written between quotes. -/
def escapeByte (c : UInt8) : Text :=
  match simpleEscapes.find? fun e => e.2 == c with
  | some e => [Byte.backslash, e.1]
  | none => [c]

/-- A text as it is written between quotes. -/
def escapeText (s : Text) : Text := s.flatMap escapeByte

/-- Every backslash takes along the byte after it. -/
inductive Paired : Text → Prop
  | nil : Paired []
  | plain {b : UInt8} {t : Text} (unescaped : b ≠ Byte.backslash) (rest : Paired t) :
      Paired (b :: t)
  | pair {b : UInt8} {t : Text} (rest : Paired t) : Paired (Byte.backslash :: b :: t)

/-! ### Writing a text between quotes -/

section Writing

variable {b c : UInt8} {s rest : Text}

theorem escapeByte_cases (c : UInt8) :
    (∃ b, (b, c) ∈ simpleEscapes ∧ escapeByte c = [Byte.backslash, b]) ∨
      (∀ b, (b, c) ∉ simpleEscapes) ∧ escapeByte c = [c] := by
  unfold escapeByte
  cases hfind : simpleEscapes.find? fun e => e.2 == c with
  | some e =>
    obtain ⟨b, c'⟩ := e
    have hmem := List.mem_of_find?_eq_some hfind
    obtain rfl : c' = c := by simpa using List.find?_some hfind
    exact .inl ⟨b, hmem, rfl⟩
  | none =>
    refine .inr ⟨fun b hb => ?_, rfl⟩
    simpa using List.find?_eq_none.mp hfind _ hb

theorem escapeText_cons (c : UInt8) (s : Text) :
    escapeText (c :: s) = escapeByte c ++ escapeText s := rfl

/-- Decoding takes the escapes back. -/
theorem spells_escapeText (s : Text) : Spells (escapeText s) s := by
  induction s with
  | nil => exact .done
  | cons c s ih =>
    rw [escapeText_cons]
    obtain ⟨b, hentry, hbyte⟩ | ⟨hplain, hbyte⟩ := escapeByte_cases c
    · have hdenotes : IsEscape [Byte.backslash, b] (escapeText s) c.toNat := .simple hentry
      obtain ⟨d, hd⟩ := Utf8.exists_char hdenotes.isValidChar
      have hsingle : String.utf8EncodeChar d = [c] := by
        rw [← Utf8.encode_toNat, hd, encode_of_mem_simpleEscapes hentry]
      rw [hbyte, show c :: s = String.utf8EncodeChar d ++ s by rw [hsingle]; rfl]
      exact .escape (hd ▸ hdenotes) ih
    · rw [hbyte]
      refine .plain ?_ ih
      rintro rfl
      exact hplain Byte.backslash (by decide)

end Writing

/-! ### Reading it back as a token -/

section Reading

open Lexeme

variable {quote b : UInt8} {s t rest : Text}

theorem quotedLength_close (hline : quote ≠ Byte.newline ∧ quote ≠ Byte.carriageReturn)
    (rest : Text) : quotedLength quote (quote :: rest) = (0, true) := by
  rw [quotedLength.eq_def]
  simp [hline]

theorem quotedLength_plain (hline : b ≠ Byte.newline ∧ b ≠ Byte.carriageReturn) (hb : b ≠ quote)
    (hplain : b ≠ Byte.backslash) (t : Text) :
    quotedLength quote (b :: t) = ((quotedLength quote t).1 + 1, (quotedLength quote t).2) := by
  rw [quotedLength.eq_def]
  simp [hline, hb, hplain]

theorem quotedLength_pair (hquote : Byte.backslash ≠ quote) (hb : b ≠ Byte.newline) (t : Text) :
    quotedLength quote (Byte.backslash :: b :: t) =
      ((quotedLength quote t).1 + 2, (quotedLength quote t).2) := by
  rw [quotedLength.eq_def]
  simp [hquote, hb, show Byte.backslash ≠ Byte.newline by decide,
    show Byte.backslash ≠ Byte.carriageReturn by decide]

/-- The scanner finds the closing quote behind a text that is written between quotes. -/
theorem quotedLength_escapeText (hquote : quote = Byte.doubleQuote ∨ quote = Byte.singleQuote)
    (s rest : Text) :
    quotedLength quote (escapeText s ++ quote :: rest) = ((escapeText s).length, true) := by
  induction s with
  | nil => exact quotedLength_close (by rcases hquote with rfl | rfl <;> decide) rest
  | cons c s ih =>
    rw [escapeText_cons, List.append_assoc, List.length_append]
    obtain ⟨b, hentry, hbyte⟩ | ⟨hplain, hbyte⟩ := escapeByte_cases c
    · obtain ⟨-, -, -, -, hb⟩ := simpleEscapes_ascii hentry
      have hbackslash : Byte.backslash ≠ quote := by rcases hquote with rfl | rfl <;> decide
      rw [hbyte, List.cons_append, List.singleton_append,
        quotedLength_pair hbackslash hb, ih, Nat.add_comm]
      rfl
    · have hne (e : UInt8 × UInt8) (he : e ∈ simpleEscapes) : c ≠ e.2 := by
        rintro rfl
        exact hplain e.1 he
      have hclose : c ≠ quote := by
        rcases hquote with rfl | rfl
        · exact hne (Byte.doubleQuote, 0x22) (by decide)
        · exact hne (Byte.singleQuote, 0x27) (by decide)
      rw [hbyte, List.singleton_append,
        quotedLength_plain ⟨hne (0x6E, 0x0A) (by decide), hne (0x72, 0x0D) (by decide)⟩ hclose
          (hne (Byte.backslash, 0x5C) (by decide)), ih, Nat.add_comm]
      rfl

theorem first_escapeText (hquote : quote = Byte.doubleQuote ∨ quote = Byte.singleQuote) (s : Text) :
    first quote (escapeText s ++ [quote]) =
      (.token .string (escapeText s) false, (escapeText s).length + 2) := by
  have hquoted : first quote (escapeText s ++ [quote]) =
      quoted quote (quote :: (escapeText s ++ [quote])) := by
    rcases hquote with rfl | rfl <;> rfl
  rw [hquoted, quoted, List.drop_one, List.tail_cons, quotedLength_escapeText hquote s []]
  simp

/-- The source is one piece. -/
theorem cut_escapeText (hquote : quote = Byte.doubleQuote ∨ quote = Byte.singleQuote) (s : Text)
    (l : Location) :
    cut l (quote :: escapeText s ++ [quote]) =
      [⟨.token .string (escapeText s) false, quote :: escapeText s ++ [quote],
        ⟨l, l.after (quote :: escapeText s ++ [quote])⟩⟩] := by
  have hlength : (escapeText s ++ [quote]).length = (escapeText s).length + 2 - 1 := by simp
  rw [List.cons_append, cut, first_escapeText hquote]
  dsimp only
  rw [← hlength, List.take_length, List.drop_length, cut]

/-- What is read from a source that is one string literal. -/
def literalStream (source text : Text) : TokenStream :=
  let stop := ({} : Location).after source
  { tokens :=
      [{ kind := .string, span := ⟨{}, stop⟩, text := text },
        { kind := .endOfFile, span := ⟨stop, stop⟩ }]
    docs := []
    diagnostics := [] }

theorem ofSource_escapeText (hquote : quote = Byte.doubleQuote ∨ quote = Byte.singleQuote)
    (s file : Text) :
    TokenStream.ofSource (quote :: escapeText s ++ [quote]) file =
      literalStream (quote :: escapeText s ++ [quote]) (escapeText s) := by
  have hmark : skipMark (quote :: escapeText s ++ [quote]) =
      ({}, quote :: escapeText s ++ [quote]) := by
    rcases hquote with rfl | rfl <;> rfl
  rw [TokenStream.ofSource, hmark]
  dsimp only
  rw [cut_escapeText hquote]
  rfl

end Reading

/-! ### What backslashes take along -/

section Pairing

open Lexeme

variable {raw w t rest : Text} {b : UInt8} {n : Nat}

theorem Paired.tail (hb : b ≠ Byte.backslash) (h : Paired (b :: t)) : Paired t := by
  cases h with
  | plain unescaped rest => exact rest
  | pair rest => exact absurd rfl hb

theorem Paired.tail_tail (h : Paired (Byte.backslash :: b :: t)) : Paired t := by
  cases h with
  | plain unescaped rest => exact absurd rfl unescaped
  | pair rest => exact rest

theorem Paired.of_append {ds : Text} (hds : Byte.backslash ∉ ds) (h : Paired (ds ++ t)) :
    Paired t := by
  induction ds with
  | nil => exact h
  | cons b ds ih =>
    rw [List.mem_cons, not_or] at hds
    exact ih hds.2 (Paired.tail (Ne.symm hds.1) h)

/-- A literal that ends at its quote takes its backslashes along in pairs. -/
theorem paired_of_quotedLength {quote : UInt8} (h : quotedLength quote t = (n, true)) :
    Paired (t.take n) := by
  fun_induction quotedLength quote t generalizing n with
  | case1 => cases h
  | case2 => cases h
  | case3 =>
    cases h
    exact .nil
  | case4 => cases h
  | case5 => cases h
  | case6 =>
    rename_i d s _ m closed hrest _ _ ih
    simp only [Prod.mk.injEq] at h
    obtain ⟨rfl, rfl⟩ := h
    exact .pair (ih hrest)
  | case7 =>
    rename_i c s _ _ hplain m closed hrest ih
    simp only [Prod.mk.injEq] at h
    obtain ⟨rfl, rfl⟩ := h
    exact .plain hplain (ih hrest)

theorem paired_of_first {s text : Text} {escaped : Bool}
    (h : first b s = (.token .string text escaped, n)) : Paired text := by
  unfold first at h
  split at h
  · cases h
  · split at h
    · next hname =>
      have hnone : Lexeme.Spells [] false [] := ⟨rfl, by simp⟩
      obtain ⟨-, -, -, -, hkind⟩ := spells_nameFrom (by simpa using hname) hnone h
      split at hkind
      · cases hkind
      · exact absurd hkind.symm (wordKind_ne text).1
    · split at h
      · obtain ⟨-, -, hkind⟩ := number_eq_token h
        rcases hkind with hkind | hkind <;> cases hkind
      · split at h
        · unfold quoted at h
          dsimp only at h
          split at h
          · next hclosed =>
            cases h
            exact paired_of_quotedLength hclosed
          · cases h
        · split at h
          · obtain ⟨-, -, hkind⟩ := number_eq_token h
            rcases hkind with hkind | hkind <;> cases hkind
          · split at h
            · exact absurd (congrArg Prod.fst h) comment_ne_token
            · split at h <;> cases h

theorem paired_of_mem_tokensOf {l stop : Location} {pending : Option Nat} {docs : Nat}
    {token : Token} (h : token ∈ TokenStream.tokensOf stop pending docs (cut l t))
    (hkind : token.kind = .string) : Paired token.text := by
  fun_induction cut l t generalizing pending docs with
  | case1 =>
    rw [TokenStream.tokensOf, List.mem_singleton] at h
    subst h
    cases hkind
  | case2 =>
    rename_i l b s shape n hfirst text stop ih
    cases shape with
    | blank => exact ih h
    | comment => exact ih h
    | doc => exact ih h
    | problem p skipped => exact ih h
    | token kind text' escaped =>
      rcases List.mem_cons.mp h with rfl | h
      · obtain rfl : kind = .string := hkind
        exact paired_of_first hfirst
      · exact ih h

theorem Paired.of_unicodeEscape (hw : UnicodeEscape w n) (h : Paired (w ++ t)) : Paired t := by
  cases hw with
  | @mk letters ds nonempty length digits =>
    obtain ⟨k, rfl⟩ := Nat.exists_eq_succ_of_ne_zero nonempty
    have hrest : Paired (List.replicate k 0x75 ++ ds ++ t) := Paired.tail_tail h
    apply Paired.of_append _ hrest
    rw [List.mem_append]
    rintro (hmem | hmem)
    · cases List.eq_of_mem_replicate hmem
    · cases digits _ hmem

/-- Only the first byte of an escape, or of each of a pair, is a backslash, so behind an escape the
backslashes are in pairs as before. -/
theorem Paired.of_isEscape (hw : IsEscape w rest n) (h : Paired (w ++ rest)) : Paired rest := by
  cases hw with
  | simple entry => exact Paired.tail_tail h
  | @octal first ds _ digits bounded longest =>
    have hdigits : Byte.backslash ∉ ds := by
      intro hmem
      cases digits _ (List.mem_cons_of_mem _ hmem)
    exact Paired.of_append hdigits (Paired.tail_tail h)
  | unicode unit scalar => exact h.of_unicodeEscape unit
  | pair first second inHigh inLow =>
    rw [List.append_assoc] at h
    exact (h.of_unicodeEscape first).of_unicodeEscape second

theorem decodeCharacters_ne_loneBackslash {steps : Nat} (h : Paired raw) :
    decodeCharacters steps raw ≠ .error .loneBackslash := by
  induction steps generalizing raw with
  | zero => simp [decodeCharacters]
  | succ steps ih =>
    cases h with
    | nil => simp [decodeCharacters]
    | @plain b t unescaped rest =>
      rw [decodeCharacters_plain unescaped, Ne, bind_eq_error_iff]
      rintro (h | ⟨s, -, h⟩)
      · exact ih rest h
      · cases h
    | @pair b t rest =>
      rw [decodeCharacters_escape, Ne, bind_eq_error_iff]
      rintro (h | ⟨⟨piece, u⟩, hread, h⟩)
      · obtain ⟨hnil, -⟩ | ⟨sequence, hother⟩ := decodeEscape_eq_error h
        · cases hnil
        · simp at hother
      · obtain ⟨w, n, hw, hdenotes, -⟩ := decodeEscape_sound hread
        have hu : Paired u := Paired.of_isEscape hdenotes (hw ▸ .pair rest)
        obtain h | ⟨s, -, h⟩ := bind_eq_error_iff.mp h
        · exact ih hu h
        · cases h

/-- Other texts can end in a backslash. -/
example : decodeString [Byte.backslash] = .error .loneBackslash := by decide

end Pairing

/-- Reading a text between quotes and decoding what was read gives the text again, and neither of
them ends within an escape that the other goes through. -/
structure SurvivesQuoting (quote : UInt8) (s file : Text) : Prop where
  read : TokenStream.ofSource (quote :: escapeText s ++ [quote]) file =
    literalStream (quote :: escapeText s ++ [quote]) (escapeText s)
  decoded : decodeString (escapeText s) = .ok s
  aligned : ∀ source, ∀ t ∈ (TokenStream.ofSource source file).tokens, t.kind = .string →
    decodeString t.text ≠ .error .loneBackslash

/-- Every text survives quoting. -/
theorem survivesQuoting {quote : UInt8}
    (hquote : quote = Byte.doubleQuote ∨ quote = Byte.singleQuote) (s file : Text) :
    SurvivesQuoting quote s file where
  read := ofSource_escapeText hquote s file
  decoded := decodeString_eq_ok_iff.mpr (spells_escapeText s)
  aligned source t ht hkind := by
    rw [TokenStream.ofSource_eq] at ht
    exact decodeCharacters_ne_loneBackslash (paired_of_mem_tokensOf ht hkind)

/-- A quote, a line end and a backslash at the end, between quotes. -/
theorem survivesQuoting_lineEnd :
    escapeText [0x22, 0x0A, 0x5C] = [0x5C, 0x22, 0x5C, 0x6E, 0x5C, 0x5C] ∧
      SurvivesQuoting Byte.doubleQuote [0x22, 0x0A, 0x5C] "a.avdl" :=
  ⟨by decide, survivesQuoting (.inl rfl) _ _⟩

end AvroIdl.Literal
