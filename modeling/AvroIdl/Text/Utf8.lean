import AvroIdl.Text

/-!
# UTF-8

Encoding of code points, and the machine that reads well-formed sequences one byte at a time. With
it a text is judged valid, or made valid by putting U+FFFD for every maximal ill-formed piece.
-/
namespace AvroIdl.Utf8

/-- The bytes that encode a code point; from U+10000 on always four. -/
def encode (codePoint : Nat) : Text :=
  let tail (shift : Nat) : UInt8 := (0x80 + (codePoint >>> shift) % 0x40).toUInt8
  if codePoint < 0x80 then [codePoint.toUInt8]
  else if codePoint < 0x800 then [(0xC0 ||| (codePoint >>> 6)).toUInt8, tail 0]
  else if codePoint < 0x10000 then [(0xE0 ||| (codePoint >>> 12)).toUInt8, tail 6, tail 0]
  else [(0xF0 ||| (codePoint >>> 18)).toUInt8, tail 12, tail 6, tail 0]

/-- Where the reader stands between two bytes: how many continuation bytes the character still
needs, and the bounds of the next one. -/
structure State where
  needed : Nat
  low : UInt8
  high : UInt8
  deriving DecidableEq, Repr

/-- Between two characters. -/
def State.start : State := ⟨0, 0x80, 0xBF⟩

/-- The state after the first byte of a character. -/
def State.first (b : UInt8) : Option State :=
  if b ≤ 0x7F then some .start
  else if 0xC2 ≤ b && b ≤ 0xDF then some ⟨1, 0x80, 0xBF⟩
  else if b == 0xE0 then some ⟨2, 0xA0, 0xBF⟩
  else if b == 0xED then some ⟨2, 0x80, 0x9F⟩
  else if 0xE1 ≤ b && b ≤ 0xEF then some ⟨2, 0x80, 0xBF⟩
  else if b == 0xF0 then some ⟨3, 0x90, 0xBF⟩
  else if b == 0xF4 then some ⟨3, 0x80, 0x8F⟩
  else if 0xF1 ≤ b && b ≤ 0xF3 then some ⟨3, 0x80, 0xBF⟩
  else none

/-- The state after one more byte, or nothing where no well-formed text can have that byte. -/
def State.step (s : State) (b : UInt8) : Option State :=
  match s.needed with
  | 0 => State.first b
  | n + 1 => if s.low ≤ b && b ≤ s.high then some ⟨n, 0x80, 0xBF⟩ else none

/-- Whether the bytes complete the current character and go on as well-formed text. -/
def State.accepts : State → Text → Bool
  | s, [] => s.needed == 0
  | s, b :: t =>
    match s.step b with
    | some s' => s'.accepts t
    | none => false

/-- Strict validity: no overlong form, no surrogate, nothing above U+10FFFF. -/
def isValid (t : Text) : Bool := State.start.accepts t

/-- The encoding of U+FFFD. -/
def replacement : Text := [0xEF, 0xBF, 0xBD]

/-- The repaired text, where `pending` holds the bytes read of an unfinished character in
reverse. -/
def repairFrom : State → (pending : Text) → Text → Text
  | _, pending, [] => if pending.isEmpty then [] else replacement
  | s, pending, b :: t =>
    match s.step b with
    | some s' =>
      if s'.needed = 0 then pending.reverse ++ b :: repairFrom .start [] t
      else repairFrom s' (b :: pending) t
    | none =>
      if pending.isEmpty then replacement ++ repairFrom .start [] t
      else
        match State.first b with
        | none => replacement ++ (replacement ++ repairFrom .start [] t)
        | some s' =>
          if s'.needed = 0 then replacement ++ b :: repairFrom .start [] t
          else replacement ++ repairFrom s' [b] t

/-- The text with every maximal ill-formed piece replaced by U+FFFD. -/
def repair (t : Text) : Text := repairFrom .start [] t

end AvroIdl.Utf8
