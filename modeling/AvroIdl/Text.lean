/-!
# Text

Sources, names and messages are sequences of bytes that need not be valid UTF-8. This module holds
the type, the byte classes of the grammar, and the few ways in which a text is cut and joined.
-/
namespace AvroIdl

/-- A sequence of bytes. Offsets, lengths and distances count them. -/
abbrev Text := List UInt8

namespace Text

/-- The bytes of a string of ASCII characters. -/
def ofAscii (s : String) : Text := s.toList.map fun c => c.toNat.toUInt8

instance : Coe String Text := ⟨ofAscii⟩

/-- A number in decimal digits. -/
def ofNat (n : Nat) : Text := (Nat.toDigits 10 n).map fun c => c.toNat.toUInt8

/-- A number in decimal digits, with a minus sign if it is negative. -/
def ofInt : Int → Text
  | .ofNat n => ofNat n
  | .negSucc n => 0x2D :: ofNat (n + 1)

/-- The texts in order, with a separator between neighbours. -/
def join (separator : Text) : List Text → Text
  | [] => []
  | [t] => t
  | t :: ts => t ++ separator ++ join separator ts

/-- The pieces between the occurrences of a byte; always one more than there are occurrences. -/
def split (b : UInt8) : Text → List Text
  | [] => [[]]
  | c :: t =>
    match split b t with
    | [] => [[c]]
    | piece :: pieces => if c = b then [] :: piece :: pieces else (c :: piece) :: pieces

theorem split_ne_nil (b : UInt8) (t : Text) : split b t ≠ [] := by
  induction t with
  | nil => simp [split]
  | cons c t ih =>
    rw [split]
    split
    · simp
    · split <;> simp

/-- Splitting loses nothing but the separators. -/
theorem join_split (b : UInt8) (t : Text) : join [b] (split b t) = t := by
  induction t with
  | nil => rfl
  | cons c t ih =>
    rw [split]
    split
    · next h => exact absurd h (split_ne_nil b t)
    · next piece pieces h =>
      rw [h] at ih
      split
      · next hc => simp [join, ih, hc]
      · cases pieces with
        | nil => simpa [join] using ih
        | cons q qs => simpa [join] using ih

theorem split_of_notMem {b : UInt8} {t : Text} (h : b ∉ t) : split b t = [t] := by
  induction t with
  | nil => rfl
  | cons c t ih =>
    have hc : c ≠ b := fun he => h (he ▸ List.mem_cons_self)
    have ht := ih fun hmem => h (List.mem_cons_of_mem c hmem)
    rw [split, ht]
    simp [hc]

/-- A separator between two texts separates their pieces. -/
theorem split_append_cons (b : UInt8) (s t : Text) :
    split b (s ++ b :: t) = split b s ++ split b t := by
  induction s with
  | nil =>
    obtain ⟨piece, pieces, ht⟩ := List.exists_cons_of_ne_nil (split_ne_nil b t)
    simp [split, ht]
  | cons c s ih =>
    obtain ⟨piece, pieces, hs⟩ := List.exists_cons_of_ne_nil (split_ne_nil b s)
    rw [List.cons_append, split, ih, split, hs]
    by_cases hc : c = b <;> simp [hc]

theorem notMem_of_mem_split {b : UInt8} {t piece : Text} (h : piece ∈ split b t) : b ∉ piece := by
  induction t generalizing piece with
  | nil => simp_all [split]
  | cons c t ih =>
    obtain ⟨first, rest, ht⟩ := List.exists_cons_of_ne_nil (split_ne_nil b t)
    rw [ht] at ih
    rw [split, ht] at h
    dsimp only at h
    split at h
    · rcases List.mem_cons.mp h with rfl | h
      · simp
      · exact ih h
    · next hc =>
      rcases List.mem_cons.mp h with rfl | h
      · simpa [Ne.symm hc] using ih List.mem_cons_self
      · exact ih (List.mem_cons_of_mem _ h)

/-- Texts without the separator are the pieces of what they are joined to. -/
theorem split_join {b : UInt8} {ts : List Text} (hne : ts ≠ []) (h : ∀ t ∈ ts, b ∉ t) :
    split b (join [b] ts) = ts := by
  induction ts with
  | nil => exact absurd rfl hne
  | cons t ts ih =>
    have ht : split b t = [t] := split_of_notMem (h t List.mem_cons_self)
    cases ts with
    | nil => exact ht
    | cons u us =>
      have hrest := ih (by simp) fun x hx => h x (List.mem_cons_of_mem t hx)
      rw [join, List.append_assoc, List.singleton_append, split_append_cons, ht, hrest]
      · rfl
      · simp

/-- What stands before and after the last occurrence of a byte. -/
def splitLast (b : UInt8) : Text → Option (Text × Text)
  | [] => none
  | c :: t =>
    match splitLast b t with
    | some (before, after) => some (c :: before, after)
    | none => if c = b then some ([], t) else none

theorem splitLast_eq_none_iff {b : UInt8} {t : Text} : splitLast b t = none ↔ b ∉ t := by
  induction t with
  | nil => simp [splitLast]
  | cons c t ih =>
    rw [splitLast]
    cases h : splitLast b t with
    | some p => simp_all
    | none =>
      by_cases hc : c = b
      · simp [hc]
      · simp_all [eq_comm]

/-- The byte does not occur after its last occurrence. -/
theorem splitLast_eq_some_iff {b : UInt8} {t before after : Text} :
    splitLast b t = some (before, after) ↔ t = before ++ b :: after ∧ b ∉ after := by
  induction t generalizing before after with
  | nil => simp [splitLast]
  | cons c t ih =>
    rw [splitLast]
    cases h : splitLast b t with
    | some p =>
      obtain ⟨u, v⟩ := p
      have ht := ih.1 h
      constructor
      · intro e
        simp only [Option.some.injEq, Prod.mk.injEq] at e
        obtain ⟨rfl, rfl⟩ := e
        simp [ht]
      · rintro ⟨e, hb⟩
        cases before with
        | nil =>
          simp only [List.nil_append, List.cons.injEq] at e
          rw [← e.2, ht.1] at hb
          simp at hb
        | cons d before =>
          simp only [List.cons_append, List.cons.injEq] at e
          have hu := h.symm.trans (ih.2 ⟨e.2, hb⟩)
          simp only [Option.some.injEq, Prod.mk.injEq] at hu
          simp [e.1, hu]
    | none =>
      have hb := splitLast_eq_none_iff.1 h
      constructor
      · intro e
        by_cases hc : c = b
        · simp only [hc, if_true, Option.some.injEq, Prod.mk.injEq] at e
          obtain ⟨rfl, rfl⟩ := e
          exact ⟨by simp [hc], hb⟩
        · simp [hc] at e
      · rintro ⟨e, ha⟩
        cases before with
        | nil =>
          simp only [List.nil_append, List.cons.injEq] at e
          simp [e.1, e.2]
        | cons d before =>
          simp only [List.cons_append, List.cons.injEq] at e
          rw [e.2] at hb
          simp at hb

/-- What follows a given beginning, if the text starts with it. -/
def dropStart : Text → Text → Option Text
  | [], t => some t
  | _ :: _, [] => none
  | c :: start, d :: t => if c = d then dropStart start t else none

theorem dropStart_eq_some_iff {start t rest : Text} :
    dropStart start t = some rest ↔ t = start ++ rest := by
  induction start generalizing t with
  | nil => simp [dropStart]
  | cons c start ih =>
    cases t with
    | nil => simp [dropStart]
    | cons d t =>
      by_cases h : c = d
      · simp [dropStart, h, ih]
      · simp [dropStart, h, Ne.symm h]

/-- Whether the text starts with the given bytes. -/
def hasStart (start t : Text) : Bool := (dropStart start t).isSome

/-- What stands before and after the last occurrence of a pattern. -/
def splitAtLast (pattern : Text) : Text → Option (Text × Text)
  | [] => (dropStart pattern []).map fun rest => ([], rest)
  | c :: t =>
    match splitAtLast pattern t with
    | some (before, after) => some (c :: before, after)
    | none => (dropStart pattern (c :: t)).map fun rest => ([], rest)

/-- The pieces between the occurrences of a pattern of two bytes, found from the left. -/
def splitPair (a b : UInt8) : Text → List Text
  | [] => [[]]
  | [c] => [[c]]
  | c :: d :: t =>
    if c = a ∧ d = b then [] :: splitPair a b t
    else
      match splitPair a b (d :: t) with
      | [] => [[c]]
      | piece :: pieces => (c :: piece) :: pieces

/-- The text without the bytes of a class at its start and its end. -/
def trim (p : UInt8 → Bool) (t : Text) : Text :=
  ((t.dropWhile p).reverse.dropWhile p).reverse

/-- Byte by byte comparison; a beginning comes before what it begins. -/
def le : Text → Text → Bool
  | [], _ => true
  | _ :: _, [] => false
  | c :: s, d :: t => c < d || (c == d && le s t)

end Text

namespace Byte

def newline : UInt8 := 0x0A
def carriageReturn : UInt8 := 0x0D
def space : UInt8 := 0x20
def doubleQuote : UInt8 := 0x22
def singleQuote : UInt8 := 0x27
def star : UInt8 := 0x2A
def comma : UInt8 := 0x2C
def minus : UInt8 := 0x2D
def dot : UInt8 := 0x2E
def slash : UInt8 := 0x2F
def backslash : UInt8 := 0x5C
def underscore : UInt8 := 0x5F
def backtick : UInt8 := 0x60
def leftBrace : UInt8 := 0x7B
def rightBrace : UInt8 := 0x7D

/-- Space, tab, newline, vertical tab, form feed and carriage return. -/
def isSpace (b : UInt8) : Bool := b == 0x20 || (0x09 ≤ b && b ≤ 0x0D)

def isDigit (b : UInt8) : Bool := 0x30 ≤ b && b ≤ 0x39

def isUpper (b : UInt8) : Bool := 0x41 ≤ b && b ≤ 0x5A

def isLower (b : UInt8) : Bool := 0x61 ≤ b && b ≤ 0x7A

def isAlpha (b : UInt8) : Bool := isUpper b || isLower b

def isOctalDigit (b : UInt8) : Bool := 0x30 ≤ b && b ≤ 0x37

/-- The small letter of a capital one; every other byte is kept. -/
def toLower (b : UInt8) : UInt8 := if isUpper b then b + 0x20 else b

/-- The value of a hexadecimal digit. -/
def hexValue? (b : UInt8) : Option Nat :=
  if isDigit b then some (b.toNat - 0x30)
  else if 0x61 ≤ b && b ≤ 0x66 then some (b.toNat - 0x61 + 10)
  else if 0x41 ≤ b && b ≤ 0x46 then some (b.toNat - 0x41 + 10)
  else none

def isHexDigit (b : UInt8) : Bool := (hexValue? b).isSome

/-- Continuation bytes of UTF-8 do not start a character. -/
def isContinuation (b : UInt8) : Bool := 0x80 ≤ b && b ≤ 0xBF

end Byte

end AvroIdl
