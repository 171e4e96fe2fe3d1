import AvroIdl.Proofs.ScannedNumbers

/-!
# Tokens scanned again

A scanner looks at most two bytes past the token that it reads. Where these are no dot with a name
after it, whitespace or the end of the source may stand there as well: the scanner reads the same
token. Each scanner is told for a text `w ++ t` of which it reads `w`, and again for `w ++ r`.
-/
namespace AvroIdl.Lexeme

/-- A dot with the start of a name after it, which is no token. -/
def Dotted (t : Text) : Prop := ∃ b rest, t = Byte.dot :: b :: rest ∧ isNameStart b = true

/-! ### Names -/

section Names

variable {w t r : Text}

theorem part_length_le {s : Text} (h : (part s).closed = true) : (part s).length ≤ s.length := by
  cases s with
  | nil => exact Nat.le_refl _
  | cons b s =>
    unfold part at h ⊢
    dsimp only at h ⊢
    split
    · next hb =>
      rw [if_pos hb] at h
      split at h
      · next hclosed =>
        rw [if_pos hclosed]
        obtain ⟨rest, hrest⟩ := List.head?_eq_some_iff.mp hclosed
        have hlength := congrArg List.length hrest
        simp only [List.length_drop, List.length_cons] at hlength ⊢
        omega
      · cases h
    · have hrun := run_le_length isNamePart s
      rw [run] at hrun
      simpa using hrun

/-- What stands before a closing backtick is read without what comes after it. -/
theorem takeWhile_backtick {inside : Text}
    (hinside :
      (w ++ t).takeWhile (fun c => c != Byte.backtick && c != Byte.newline) = inside)
    (hquote : ((w ++ t).drop inside.length).head? = some Byte.backtick)
    (hlength : inside.length + 1 = w.length) (r : Text) :
    (w ++ r).takeWhile (fun c => c != Byte.backtick && c != Byte.newline) = inside ∧
      (w ++ r).drop inside.length = Byte.backtick :: r := by
  have hw : w = inside ++ [Byte.backtick] := by
    obtain ⟨rest, hrest⟩ := List.head?_eq_some_iff.mp hquote
    have hsplit := List.take_append_drop inside.length (w ++ t)
    have htake : (w ++ t).take inside.length = inside := by
      rw [← hinside]
      exact take_run _ _
    rw [htake, hrest, List.append_cons] at hsplit
    refine (List.append_inj hsplit ?_).1.symm
    rw [List.length_append, List.length_singleton, hlength]
  have hall : ∀ c ∈ inside, (c != Byte.backtick && c != Byte.newline) = true := by
    intro c hc
    rw [← hinside] at hc
    exact List.mem_takeWhile_imp (p := fun c => c != Byte.backtick && c != Byte.newline) hc
  constructor
  · rw [hw, List.append_assoc, List.takeWhile_append_of_pos hall]
    simp
  · rw [hw, List.append_assoc, List.drop_left]
    rfl

/-- A part of a name ends at a byte that does not belong to it. -/
theorem part_append (hw : w ≠ []) (hclosed : (part (w ++ t)).closed = true)
    (hlength : (part (w ++ t)).length = w.length) (hr : ∀ b ∈ r.head?, isNamePart b = false) :
    part (w ++ r) = part (w ++ t) := by
  obtain ⟨b, w, rfl⟩ := List.exists_cons_of_ne_nil hw
  rw [List.cons_append] at hclosed hlength ⊢
  rw [List.cons_append]
  unfold part at hclosed hlength ⊢
  dsimp only at hclosed hlength ⊢
  by_cases hb : b = Byte.backtick
  · rw [if_pos hb] at hclosed hlength
    rw [if_pos hb, if_pos hb]
    generalize hinside : (w ++ t).takeWhile (fun c => c != Byte.backtick && c != Byte.newline) =
      inside at *
    split at hclosed
    · next hquote =>
      rw [if_pos hquote] at hlength
      obtain ⟨hagain, hdrop⟩ := takeWhile_backtick hinside hquote (Nat.succ.inj hlength) r
      rw [hagain, hdrop, if_pos hquote, List.head?_cons, if_pos rfl]
    · cases hclosed
  · rw [if_neg hb] at hlength
    rw [if_neg hb, if_neg hb]
    have hrun : run isNamePart (w ++ t) = w.length := Nat.succ.inj hlength
    have htake : ∀ u : Text, run isNamePart (w ++ u) = w.length →
        (w ++ u).takeWhile isNamePart = w := fun u hu => by
      rw [← take_run, hu, List.take_left]
    rw [htake t hrun, htake r (run_append hrun hr)]

/-- A name goes on after a dot with another part of a name behind it. -/
def GoesOn (s : Text) : Prop :=
  ∃ b rest, s = Byte.dot :: b :: rest ∧ (isNameStart b = true ∨ b = Byte.backtick)

theorem Blank.not_goesOn (h : Blank r) : ¬GoesOn r := by
  rintro ⟨b, rest, rfl, -⟩
  exact absurd (h _ rfl) (by decide)

section Steps

variable {s text : Text} {escaped : Bool} {skipped : Nat}

theorem nameFrom_of_goesOn {b : UInt8} {rest : Text} (hclosed : (part s).closed = true)
    (hdrop : s.drop (part s).length = Byte.dot :: b :: rest)
    (hb : isNameStart b = true ∨ b = Byte.backtick) :
    nameFrom s text escaped skipped =
      nameFrom (b :: rest) (text ++ (part s).text ++ [Byte.dot])
        (escaped || s.head? == some Byte.backtick) (skipped + (part s).length + 1) := by
  rw [nameFrom, if_pos hclosed]
  split
  · next dot next rest' hsplit =>
    obtain ⟨rfl, rfl, rfl⟩ : Byte.dot = dot ∧ b = next ∧ rest = rest' := by
      simpa using hdrop.symm.trans hsplit
    rw [if_pos ⟨rfl, hb⟩]
  · next hno => exact absurd hdrop (hno _ _ _)

theorem nameFrom_of_ends (hclosed : (part s).closed = true)
    (hends : ¬GoesOn (s.drop (part s).length)) :
    nameFrom s text escaped skipped =
      (.token
        (if (escaped || s.head? == some Byte.backtick) ||
            (text ++ (part s).text).contains Byte.dot then .identifier
          else wordKind (text ++ (part s).text))
        (text ++ (part s).text) (escaped || s.head? == some Byte.backtick),
        skipped + (part s).length) := by
  rw [nameFrom, if_pos hclosed]
  split
  · next dot next rest hsplit =>
    rw [if_neg]
    rintro ⟨rfl, hnext⟩
    exact hends ⟨next, rest, hsplit, hnext⟩
  · rfl

/-- Each part of a name has a byte. -/
theorem lt_nameFrom {text' : Text} {escaped' : Bool} {n : Nat} {kind : Token.Kind}
    (hs : s.head?.any fun b => isNameStart b || b == Byte.backtick)
    (h : nameFrom s text escaped skipped = (.token kind text' escaped', n)) : skipped < n := by
  fun_induction nameFrom s text escaped skipped with
  | case1 s text escaped skipped p read hclosed text₁ escaped₁ dot next rest hdrop hdot ih =>
    have hlater := ih (by simpa using hdot.2) h
    omega
  | case2 s text escaped skipped p read hclosed =>
    have hn := (Prod.mk.inj h).2
    have hlong : 1 ≤ p.length := (spells_part hs hclosed).1
    omega
  | case3 s text escaped skipped p read hclosed =>
    have hn := (Prod.mk.inj h).2
    have hlong : 1 ≤ p.length := (spells_part hs hclosed).1
    omega
  | case4 => cases h

theorem nameFrom_le_length {text' : Text} {escaped' : Bool} {n : Nat} {kind : Token.Kind}
    (h : nameFrom s text escaped skipped = (.token kind text' escaped', n)) :
    n ≤ skipped + s.length := by
  fun_induction nameFrom s text escaped skipped with
  | case1 s text escaped skipped p read hclosed text₁ escaped₁ dot next rest hdrop hdot ih =>
    have hrest := ih h
    have hlength := congrArg List.length hdrop
    simp only [List.length_drop, List.length_cons] at hlength hrest
    omega
  | case2 s text escaped skipped p read hclosed =>
    have hn := (Prod.mk.inj h).2
    have hlength : p.length ≤ s.length := part_length_le hclosed
    omega
  | case3 s text escaped skipped p read hclosed =>
    have hn := (Prod.mk.inj h).2
    have hlength : p.length ≤ s.length := part_length_le hclosed
    omega
  | case4 => cases h

end Steps

/-- Two bytes that stand after some bytes of a text, in a part of it that is long enough. -/
theorem exists_after {k : Nat} {b c : UInt8} {rest : Text}
    (hdrop : (w ++ t).drop k = b :: c :: rest) (hk : k + 2 ≤ w.length) :
    ∃ first more, w = first ++ b :: c :: more ∧ first.length = k ∧ rest = more ++ t := by
  rw [List.drop_append_of_le_length (by omega)] at hdrop
  have hlength : (w.drop k).length = w.length - k := List.length_drop
  match hlater : w.drop k with
  | [] | [_] =>
    simp only [hlater, List.length_cons, List.length_nil] at hlength
    omega
  | d :: e :: more =>
    rw [hlater] at hdrop
    simp only [List.cons_append, List.cons.injEq] at hdrop
    obtain ⟨rfl, rfl, rfl⟩ := hdrop
    refine ⟨w.take k, more, ?_, ?_, rfl⟩
    · rw [← hlater, List.take_append_drop]
    · rw [List.length_take]
      omega

/-- Whitespace may stand after the last part of a name. -/
theorem nameFrom_append_of_ends {text text' : Text} {escaped escaped' : Bool} {skipped : Nat}
    {kind : Token.Kind} (hw : w ≠ []) (hclosed : (part (w ++ t)).closed = true)
    (hends : ¬GoesOn ((w ++ t).drop (part (w ++ t)).length))
    (h : nameFrom (w ++ t) text escaped skipped =
      (.token kind text' escaped', skipped + w.length)) (hr : Blank r) :
    nameFrom (w ++ r) text escaped skipped = (.token kind text' escaped', skipped + w.length) := by
  rw [nameFrom_of_ends hclosed hends] at h
  have hlength : (part (w ++ t)).length = w.length := Nat.add_left_cancel (Prod.mk.inj h).2
  have hpart : part (w ++ r) = part (w ++ t) :=
    part_append hw hclosed hlength fun b hb => isNamePart_of_isSpace (hr b hb)
  have hends' : ¬GoesOn ((w ++ r).drop (part (w ++ r)).length) := by
    rw [hpart, hlength, List.drop_left]
    exact hr.not_goesOn
  rw [nameFrom_of_ends (hpart ▸ hclosed) hends', hpart, ← head?_append_append hw (t := t)]
  exact h

/-- Whitespace may stand after a name. -/
theorem nameFrom_append {text text' : Text} {escaped escaped' : Bool} {skipped : Nat}
    {kind : Token.Kind} (hw : w.head?.any fun b => isNameStart b || b == Byte.backtick)
    (h : nameFrom (w ++ t) text escaped skipped =
      (.token kind text' escaped', skipped + w.length)) (hr : Blank r) :
    nameFrom (w ++ r) text escaped skipped = (.token kind text' escaped', skipped + w.length) := by
  induction hn : w.length using Nat.strongRecOn generalizing w text escaped skipped with
  | ind n ih =>
    subst hn
    have hne : w ≠ [] := by
      rintro rfl
      cases hw
    have hstart : (w ++ t).head?.any fun b => isNameStart b || b == Byte.backtick := by
      rw [← List.append_nil w] at hw
      rwa [head?_append_append hne (r := t)] at hw
    have hclosed : (part (w ++ t)).closed = true := by
      by_contra hopen
      rw [nameFrom, if_neg hopen] at h
      cases h
    have hlong := (spells_part hstart hclosed).1
    by_cases hgoes : GoesOn ((w ++ t).drop (part (w ++ t)).length)
    · obtain ⟨b, rest, hdrop, hb⟩ := hgoes
      have hhead : (b :: rest).head?.any fun b => isNameStart b || b == Byte.backtick := by
        simpa using hb
      rw [nameFrom_of_goesOn hclosed hdrop hb] at h
      have hlater := lt_nameFrom hhead h
      -- the part that has been read, the dot and the byte after it all stand in `w`
      obtain ⟨first, more, rfl, hfirst, rfl⟩ := exists_after hdrop (by omega)
      have hne' : first ≠ [] := by
        rw [← List.length_pos_iff, hfirst]
        exact hlong
      have hsplit : ∀ u : Text, first ++ Byte.dot :: b :: more ++ u =
          first ++ (Byte.dot :: b :: (more ++ u)) := by simp
      simp only [hsplit] at hclosed hfirst h ⊢
      have hpart : part (first ++ (Byte.dot :: b :: (more ++ r))) =
          part (first ++ (Byte.dot :: b :: (more ++ t))) := by
        apply part_append hne' hclosed hfirst.symm
        rintro c ⟨⟩
        rfl
      have hlength : skipped + (first ++ Byte.dot :: b :: more).length =
          skipped + first.length + 1 + (b :: more).length := by
        simp
        omega
      have hdrop' : (first ++ (Byte.dot :: b :: (more ++ r))).drop
          (part (first ++ (Byte.dot :: b :: (more ++ r)))).length =
            Byte.dot :: b :: (more ++ r) := by
        rw [hpart, ← hfirst, List.drop_left]
      rw [← hfirst, hlength, head?_append_append hne' (r := Byte.dot :: b :: (more ++ r))] at h
      rw [nameFrom_of_goesOn (hpart ▸ hclosed) hdrop' hb, hpart, ← hfirst, hlength]
      apply ih (b :: more).length _ _ h rfl
      · simp
        omega
      · simpa using hb
    · exact nameFrom_append_of_ends hne hclosed hgoes h hr

end Names

/-! ### String literals -/

section Quotes

variable {quote : UInt8} {n : Nat}

theorem quotedLength_lt {s : Text} (h : quotedLength quote s = (n, true)) : n < s.length :=
  (List.getElem?_eq_some_iff.mp (quotedLength_closed h)).1

/-- Nothing after the closing quote matters. -/
theorem quotedLength_take {s : Text} (h : quotedLength quote s = (n, true)) (r : Text) :
    quotedLength quote (s.take (n + 1) ++ r) = (n, true) := by
  fun_induction quotedLength quote s generalizing n with
  | case1 => cases h
  | case2 => cases h
  | case3 =>
    rename_i hline
    cases h
    rw [List.take_succ_cons, List.cons_append, quotedLength.eq_def]
    simp only [if_neg hline, if_true]
  | case4 => cases h
  | case5 => cases h
  | case6 =>
    rename_i d s hd m closed hmore hline hquote ih
    obtain ⟨rfl, rfl⟩ := Prod.mk.inj h
    have hagain := ih hmore
    simp only [List.take_succ_cons, List.cons_append, quotedLength, if_neg hline, if_neg hquote,
      if_neg hd, hagain, if_true]
  | case7 =>
    rename_i c s hline hquote hescape m closed hmore ih
    obtain ⟨rfl, rfl⟩ := Prod.mk.inj h
    have hagain := ih hmore
    rw [List.take_succ_cons, List.cons_append, quotedLength.eq_def]
    simp only [if_neg hline, if_neg hquote, if_neg hescape, hagain]

theorem quotedLength_of_quoted {s text : Text} {kind : Token.Kind} {escaped : Bool}
    (h : quoted quote (quote :: s) = (.token kind text escaped, n)) :
    ∃ m, quotedLength quote s = (m, true) ∧ n = m + 2 := by
  unfold quoted at h
  dsimp only at h
  rw [List.drop_succ_cons, List.drop_zero] at h
  split at h
  · next m hclosed => exact ⟨m, hclosed, (Prod.mk.inj h).2.symm⟩
  · cases h

theorem quoted_append {w t text : Text} {kind : Token.Kind} {escaped : Bool}
    (h : quoted quote (quote :: (w ++ t)) = (.token kind text escaped, w.length + 1)) (r : Text) :
    quoted quote (quote :: (w ++ r)) = (.token kind text escaped, w.length + 1) := by
  obtain ⟨m, hm, hlength⟩ := quotedLength_of_quoted h
  have htake : ∀ u : Text, (w ++ u).take (m + 1) = w := fun u => by
    rw [← Nat.succ.inj hlength, List.take_left]
  have hagain : quotedLength quote (w ++ r) = (m, true) := by
    rw [← htake t]
    exact quotedLength_take hm r
  have hinside : (w ++ r).take m = (w ++ t).take m := by
    rw [List.take_append_of_le_length (by omega), List.take_append_of_le_length (by omega)]
  simp only [quoted, List.drop_succ_cons, List.drop_zero, hm] at h
  simp only [quoted, List.drop_succ_cons, List.drop_zero, hagain, hinside]
  exact h

end Quotes

/-! ### The first piece of a text -/

section First

variable {b c : UInt8} {s w t r text : Text} {kind : Token.Kind} {escaped : Bool} {n : Nat}

theorem fraction_le_digits (s : Text) :
    fraction (Byte.dot :: s) ≤ (digits (Byte.dot :: s)).2 := by
  have hbase : ¬HasBase (Byte.dot :: s) := by
    rintro ⟨rest, hrest | hrest⟩
    all_goals cases hrest
  have hrun : run isDigitOrGap (Byte.dot :: s) = 0 := run_eq_zero_iff.mpr (by rintro b ⟨⟩; rfl)
  rw [digits_of_not_hasBase hbase, withExponent_eq, withFraction_eq, hrun]
  simp

theorem numeral_le_signedNumber (s : Text) (sign : Nat)
    (h : ¬((s.drop sign).head? = some 0x49 ∨ (s.drop sign).head? = some 0x4E)) :
    sign + (numeral (s.drop sign)).2 ≤ (signedNumber sign s).2 := by
  unfold signedNumber
  dsimp only
  rw [if_neg h]
  split
  all_goals
    dsimp only
    omega

/-- A minus sign is part of the number that it starts, and so is what starts that number behind
it. -/
theorem two_le_number_of_minus (hs : s.head?.any continuesMinus = true) (hdotted : ¬Dotted s) :
    2 ≤ (number (Byte.minus :: s)).2 := by
  obtain ⟨b, s, rfl⟩ : ∃ b rest, s = b :: rest := by
    cases s with
    | nil => cases hs
    | cons b s => exact ⟨b, s, rfl⟩
  by_cases hword : b = 0x49 ∨ b = 0x4E
  · have hrun : 1 ≤ run Byte.isAlpha (b :: s) := by
      apply one_le_run
      rcases hword with rfl | rfl <;> rfl
    rw [number_eq]
    simp only [List.head?_cons, if_true, signedNumber, List.drop_succ_cons, List.drop_zero,
      Option.some.injEq, if_pos hword]
    split
    all_goals
      dsimp only
      omega
  · have hnumeral := digits_le_numeral (b :: s)
    have hnumber : 1 + (numeral (b :: s)).2 ≤ (number (Byte.minus :: b :: s)).2 :=
      numeral_le_signedNumber (Byte.minus :: b :: s) 1 (by simpa using hword)
    have hdigits : 1 ≤ (digits (b :: s)).2 := by
      by_cases hdot : b = Byte.dot
      · subst hdot
        have hfraction := fraction_le_digits s
        have hname : s.head?.any isNameStart ≠ true := by
          cases s with
          | nil => simp
          | cons c s =>
            intro hc
            exact hdotted ⟨c, s, rfl, hc⟩
        rw [fraction, if_pos ⟨rfl, by simpa using hname⟩] at hfraction
        omega
      · apply one_le_digits
        simp only [List.head?_cons, Option.any_some, continuesMinus, Bool.or_eq_true,
          beq_iff_eq] at hs
        tauto
    omega

/-- The digit after a dot that starts a number is part of it. -/
theorem two_le_number_of_dot (hc : Byte.isDigit c = true) :
    2 ≤ (number (Byte.dot :: c :: s)).2 := by
  have hname := isNameStart_of_isDigit hc
  have hrun : 1 ≤ run isDigitOrGap (c :: s) := one_le_run (by rw [isDigitOrGap, hc, Bool.true_or])
  have hfraction := fraction_le_digits (c :: s)
  rw [fraction, if_pos ⟨rfl, by simp [hname]⟩] at hfraction
  have hnumeral := digits_le_numeral (Byte.dot :: c :: s)
  have hnumber : 0 + (numeral (Byte.dot :: c :: s)).2 ≤ (number (Byte.dot :: c :: s)).2 :=
    numeral_le_signedNumber (Byte.dot :: c :: s) 0 (by simp [Byte.dot])
  omega

/-- What starts a number: a digit, a dot before a digit, or a minus sign before what may follow
it. -/
inductive StartsNumber (b : UInt8) (s : Text) : Prop
  | digit (digit : Byte.isDigit b = true)
  | dot (dot : b = Byte.dot) (next : s.head?.any Byte.isDigit = true)
  | minus (minus : b = Byte.minus) (next : s.head?.any continuesMinus = true)

theorem first_of_name (h : isNameStart b = true ∨ b = Byte.backtick) (s : Text) :
    first b s = nameFrom (b :: s) [] false 0 := by
  have hspace : ¬Byte.isSpace b = true := by
    intro hspace
    rcases h with h | rfl
    · rw [isNameStart_of_isSpace hspace] at h
      cases h
    · cases hspace
  rw [first, if_neg hspace, if_pos h]

theorem StartsNumber.first_eq (h : StartsNumber b s) : first b s = number (b :: s) := by
  cases h with
  | digit hdigit =>
    have hspace : ¬Byte.isSpace b = true := by
      grind [Byte.isSpace, Byte.isDigit]
    have hname : ¬(isNameStart b = true ∨ b = Byte.backtick) := by
      grind [isNameStart_of_isDigit, Byte.isDigit, Byte.backtick]
    rw [first, if_neg hspace, if_neg hname, if_pos (.inl hdigit)]
  | dot hdot hnext =>
    subst hdot
    rw [first, if_neg (by decide), if_neg (by decide), if_pos (.inr ⟨rfl, hnext⟩)]
  | minus hminus hnext =>
    subst hminus
    have hdigit : ¬(Byte.isDigit Byte.minus = true ∨
        Byte.minus = Byte.dot ∧ s.head?.any Byte.isDigit = true) := by
      rintro (hdigit | ⟨hdot, -⟩)
      · cases hdigit
      · exact absurd hdot (by decide)
    rw [first, if_neg (by decide), if_neg (by decide), if_neg hdigit, if_neg (by decide),
      if_pos ⟨rfl, hnext⟩]

theorem first_of_quote (h : b = Byte.doubleQuote ∨ b = Byte.singleQuote) (s : Text) :
    first b s = quoted b (b :: s) := by
  rcases h with rfl | rfl
  all_goals rfl

theorem first_of_mark {m : Mark} (h : Mark.ofByte? b = some m) (s : Text) :
    first b s = (.token (.mark m) [b] false, 1) := by
  have hb : m.byte = b := by simpa using List.find?_some h
  subst hb
  cases m
  all_goals rfl

/-- A token is a name, a number, a string literal or a mark. -/
theorem first_eq_token (h : first b s = (.token kind text escaped, n)) :
    (isNameStart b = true ∨ b = Byte.backtick) ∨ StartsNumber b s ∨
      (b = Byte.doubleQuote ∨ b = Byte.singleQuote) ∨ ∃ m, Mark.ofByte? b = some m := by
  unfold first at h
  split at h
  · cases h
  · split at h
    · next hname => exact .inl hname
    · split at h
      · next hnumber =>
        rcases hnumber with hdigit | ⟨hdot, hnext⟩
        · exact .inr (.inl (.digit hdigit))
        · exact .inr (.inl (.dot hdot hnext))
      · split at h
        · next hquote => exact .inr (.inr (.inl hquote))
        · split at h
          · next hminus => exact .inr (.inl (.minus hminus.1 hminus.2))
          · split at h
            · exact absurd (congrArg Prod.fst h) comment_ne_token
            · split at h
              · next m hm => exact .inr (.inr (.inr ⟨m, hm⟩))
              · cases h

theorem first_le_length (h : first b s = (.token kind text escaped, n)) : n ≤ s.length + 1 := by
  rcases first_eq_token h with hname | hnumber | hquote | ⟨m, hm⟩
  · rw [first_of_name hname] at h
    have hlength := nameFrom_le_length h
    rwa [Nat.zero_add] at hlength
  · rw [hnumber.first_eq] at h
    have hlength := number_le_length (b :: s)
    rwa [h] at hlength
  · rw [first_of_quote hquote] at h
    obtain ⟨m, hclosed, rfl⟩ := quotedLength_of_quoted h
    have hlength := quotedLength_lt hclosed
    omega
  · rw [first_of_mark hm] at h
    have hn := (Prod.mk.inj h).2
    omega

/-- A number takes along what shows that it is one. -/
theorem StartsNumber.append (h : StartsNumber b (w ++ t))
    (hn : (number (b :: (w ++ t))).2 = w.length + 1) (ht : ¬Dotted t) :
    StartsNumber b (w ++ r) ∧ (w ≠ [] ∨ b ≠ Byte.minus) := by
  cases h with
  | digit hdigit =>
    refine ⟨.digit hdigit, .inr ?_⟩
    rintro rfl
    cases hdigit
  | dot hdot hnext =>
    subst hdot
    have hw : w ≠ [] := by
      rintro rfl
      obtain ⟨c, s, rfl⟩ : ∃ c s, t = c :: s := by
        cases t with
        | nil => cases hnext
        | cons c s => exact ⟨c, s, rfl⟩
      have hlong := two_le_number_of_dot (s := s) hnext
      simp only [List.nil_append, List.length_nil] at hn
      omega
    rw [head?_append_append hw (r := r)] at hnext
    exact ⟨.dot rfl hnext, .inl hw⟩
  | minus hminus hnext =>
    subst hminus
    have hw : w ≠ [] := by
      rintro rfl
      rw [List.nil_append] at hn hnext
      have hlong := two_le_number_of_minus hnext ht
      rw [List.length_nil] at hn
      omega
    rw [head?_append_append hw (r := r)] at hnext
    exact ⟨.minus rfl hnext, .inl hw⟩

/-- A token is read again if there is whitespace or the end of the text behind it. -/
theorem first_append (h : first b (w ++ t) = (.token kind text escaped, w.length + 1))
    (ht : ¬Dotted t) (hr : Blank r) :
    first b (w ++ r) = (.token kind text escaped, w.length + 1) := by
  rcases first_eq_token h with hname | hnumber | hquote | ⟨m, hm⟩
  · rw [first_of_name hname] at h ⊢
    have hbare : nameFrom (b :: w ++ t) [] false 0 =
        (.token kind text escaped, 0 + (b :: w).length) := by
      simpa using h
    simpa using nameFrom_append (by simpa using hname) hbare hr
  · rw [hnumber.first_eq] at h
    obtain ⟨hstarts, hw⟩ := hnumber.append (r := r) (congrArg Prod.snd h) ht
    rw [hstarts.first_eq]
    exact number_append hw h hr
  · rw [first_of_quote hquote] at h ⊢
    exact quoted_append h r
  · rw [first_of_mark hm] at h ⊢
    exact h

/-- A dot before a name is no token. -/
theorem first_of_dotted {rest : Text} (hs : Dotted (b :: rest)) :
    first b rest = (.problem (.unexpected Byte.dot) 0, 1) := by
  obtain ⟨c, s, hsplit, hc⟩ := hs
  obtain ⟨rfl, rfl⟩ := List.cons.inj hsplit
  have hdigit : Byte.isDigit c = false := by
    by_contra hdigit
    rw [isNameStart_of_isDigit (by simpa using hdigit)] at hc
    cases hc
  simp only [first, List.head?_cons, Option.any_some, hdigit]
  rfl

end First

end AvroIdl.Lexeme
