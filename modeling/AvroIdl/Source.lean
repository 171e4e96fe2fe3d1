import AvroIdl.Number.Power
import AvroIdl.Text

/-!
# Places in a source

Lines and columns start at one and offsets at zero. A column counts characters: the continuation
bytes of UTF-8 do not advance it. Both are counted in words of 32 bits, which start again at zero
after the greatest one. Spans are half open.
-/
namespace AvroIdl

/-- A number that is given to a counter keeps its last 32 bits. -/
instance instCoeWord : Coe Nat UInt32 := ⟨UInt32.ofNat⟩

structure Location where
  lineWord : UInt32 := 1
  columnWord : UInt32 := 1
  offset : Nat := 0
  deriving DecidableEq, Repr

/-- The line as it is shown. -/
def Location.line (l : Location) : Nat := l.lineWord.toNat

/-- The column as it is shown. -/
def Location.column (l : Location) : Nat := l.columnWord.toNat

/-- The place after one more byte. -/
def Location.next (l : Location) (b : UInt8) : Location :=
  if b = Byte.newline then ⟨l.lineWord + 1, 1, l.offset + 1⟩
  else
    ⟨l.lineWord, if Byte.isContinuation b then l.columnWord else l.columnWord + 1, l.offset + 1⟩

/-- The place after reading a text. -/
def Location.after (l : Location) (t : Text) : Location := t.foldl Location.next l

theorem Location.after_append (l : Location) (s t : Text) :
    l.after (s ++ t) = (l.after s).after t := by
  simp [after]

theorem Location.offset_next (l : Location) (b : UInt8) : (l.next b).offset = l.offset + 1 := by
  unfold next
  split <;> rfl

theorem Location.offset_after (l : Location) (t : Text) :
    (l.after t).offset = l.offset + t.length := by
  induction t generalizing l with
  | nil => rfl
  | cons b t ih =>
    have h : l.after (b :: t) = (l.next b).after t := rfl
    rw [h, ih, offset_next, List.length_cons]
    omega

structure Span where
  start : Location := {}
  stop : Location := {}
  deriving DecidableEq, Repr

/-- From the start of one span to the end of another. -/
def Span.to (first last : Span) : Span := ⟨first.start, last.stop⟩

/-- An offset into a source and a number of bytes from there. -/
structure ByteRange where
  offset : Nat := 0
  length : Nat := 0
  deriving DecidableEq, Repr

/-- The range between two offsets, both included. A negative start gives the empty range at zero,
and a stop before the start the empty range at the start. -/
def ByteRange.inclusive (start stop : Int) : ByteRange :=
  if start < 0 then {}
  else if stop < start then ⟨start.toNat, 0⟩
  else ⟨start.toNat, (stop - start).toNat + 1⟩

/-- An offset read as a signed number of 64 bits. -/
def signedOffset (n : Nat) : Int := Int.bmod n (pow2 64)

/-- The range of a span; the offset of its last byte is one less than its end. -/
def Span.byteRange (s : Span) : ByteRange :=
  .inclusive (signedOffset s.start.offset) (signedOffset s.stop.offset - 1)

end AvroIdl
