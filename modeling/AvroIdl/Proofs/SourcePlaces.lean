import AvroIdl.Token.Lexeme
import Mathlib.Data.List.DropRight

/-!
# What a place in a source says

Lines and columns are counted byte by byte while a source is read. Here they are told from the bytes
before a place: a line by the newlines among them, and a column by the characters since the last of
these. A byte order mark at the start of a source takes no column. What is counted are words of 32
bits, which are the numbers themselves in a source that is not too long for them.
-/
namespace AvroIdl

/-- The bytes after the last newline. -/
def Text.lastLine (t : Text) : Text := t.rtakeWhile fun b => b != Byte.newline

/-- The number of characters after the last newline. -/
def Text.columns (t : Text) : Nat := t.lastLine.countP fun b => !Byte.isContinuation b

theorem Text.columns_concat (t : Text) (b : UInt8) :
    Text.columns (t ++ [b]) =
      if b = Byte.newline then 0
      else if Byte.isContinuation b then t.columns else t.columns + 1 := by
  unfold columns lastLine
  rw [List.rtakeWhile_concat]
  by_cases hb : b = Byte.newline
  · simp [hb]
  · rw [if_pos (by simpa using hb), if_neg hb, List.countP_append]
    cases hc : Byte.isContinuation b <;> simp [hc]

namespace Location

theorem lineWord_after (l : Location) (t : Text) :
    (l.after t).lineWord = l.lineWord + .ofNat (t.count Byte.newline) := by
  induction t generalizing l with
  | nil => simp [after]
  | cons b t ih =>
    have hstep : l.after (b :: t) = (l.next b).after t := rfl
    rw [hstep, ih, next]
    split
    · next hb =>
      rw [hb, List.count_cons_self, UInt32.ofNat_add, UInt32.add_assoc,
        UInt32.add_comm (UInt32.ofNat (t.count _))]
      rfl
    · next hb => simp [hb]

/-- A column that was counted from the start of a line goes on from there, or from the last newline
that has been read. -/
theorem columnWord_after (l : Location) (t : Text) :
    (l.after t).columnWord =
      (if Byte.newline ∈ t then 1 else l.columnWord) + .ofNat t.columns := by
  induction t using List.reverseRecOn with
  | nil => simp [after, Text.lastLine, Text.columns]
  | append_singleton t b ih =>
    rw [after_append]
    change ((l.after t).next b).columnWord = _
    rw [next, Text.columns_concat]
    by_cases hb : b = Byte.newline
    · simp [hb]
    · have hmem : (Byte.newline ∈ t ++ [b]) ↔ Byte.newline ∈ t := by simp [Ne.symm hb]
      simp only [if_neg hb, hmem, ih]
      split
      · rfl
      · rw [UInt32.ofNat_add, ← UInt32.add_assoc]
        rfl

end Location

namespace Lexeme

/-- The number of bytes of the byte order mark that a source begins with. -/
def markLength (source : Text) : Nat := if Text.hasStart byteOrderMark source then 3 else 0

theorem skipMark_eq (source : Text) :
    skipMark source = (⟨1, 1, markLength source⟩, source.drop (markLength source)) := by
  unfold skipMark markLength Text.hasStart
  cases h : Text.dropStart byteOrderMark source with
  | none => rfl
  | some rest =>
    rw [Text.dropStart_eq_some_iff.mp h]
    rfl

/-- The place where the text of a source starts. -/
def startOf (source : Text) : Location := ⟨1, 1, markLength source⟩

theorem markLength_le (source : Text) : markLength source ≤ source.length := by
  unfold markLength Text.hasStart
  cases h : Text.dropStart byteOrderMark source with
  | none => simp
  | some rest =>
    rw [Text.dropStart_eq_some_iff.mp h]
    simp [byteOrderMark]

theorem newline_notMem_mark (source : Text) :
    Byte.newline ∉ source.take (markLength source) := by
  unfold markLength Text.hasStart
  cases h : Text.dropStart byteOrderMark source with
  | none => simp
  | some rest =>
    rw [Text.dropStart_eq_some_iff.mp h]
    simp [byteOrderMark, Byte.newline]

end Lexeme

namespace Location

/-- A place in a source: its line is one more than the number of newlines before it, and its column
one more than the number of characters since the last of them, the byte order mark apart. Lines and
columns are words of 32 bits, and so are the sums. -/
structure IsIn (source : Text) (l : Location) : Prop where
  offset_le : l.offset ≤ source.length
  line_eq : l.lineWord = 1 + .ofNat ((source.take l.offset).count Byte.newline)
  column_eq : l.columnWord =
    1 + .ofNat (Text.columns ((source.take l.offset).drop (Lexeme.markLength source)))

/-- The place that is reached when a part of a source has been read. -/
theorem isIn_after {source read rest : Text}
    (h : source.drop (Lexeme.markLength source) = read ++ rest) :
    ((Lexeme.startOf source).after read).IsIn source := by
  have hoffset : ((Lexeme.startOf source).after read).offset =
      Lexeme.markLength source + read.length := offset_after _ _
  have hsource : source = source.take (Lexeme.markLength source) ++ (read ++ rest) := by
    rw [← h, List.take_append_drop]
  have hmark : (source.take (Lexeme.markLength source)).length = Lexeme.markLength source := by
    simp [Lexeme.markLength_le]
  have htake : source.take (Lexeme.markLength source + read.length) =
      source.take (Lexeme.markLength source) ++ read := by
    rw [List.take_add, h, List.take_left]
  refine ⟨?_, ?_, ?_⟩
  · have hlength := congrArg List.length hsource
    simp only [List.length_append, hmark] at hlength
    omega
  · rw [hoffset, htake, lineWord_after, List.count_append,
      List.count_eq_zero_of_not_mem (Lexeme.newline_notMem_mark source), Nat.zero_add]
    rfl
  · rw [hoffset, htake, List.drop_left' hmark, columnWord_after]
    simp [Lexeme.startOf]

end Location

end AvroIdl
