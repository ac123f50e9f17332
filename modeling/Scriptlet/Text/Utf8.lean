import Scriptlet.Text.Bytes

/-!
# Characters of a byte text

A text is read one character at a time by looking at the lead byte only: it tells how many
bytes its character takes, and the text's end may cut the last character short. A byte that
leads nothing counts as a character of its own, so every byte text can be read to its end.
-/

namespace Scriptlet.Utf8

/-- Number of bytes a character takes that starts with `lead`; a continuation byte and a
byte that starts no character take one. -/
def sequenceLength (lead : UInt8) : Nat :=
  if lead < 0x80 then 1
  else if lead < 0xC0 then 1
  else if lead < 0xE0 then 2
  else if lead < 0xF0 then 3
  else if lead < 0xF8 then 4
  else 1

/-- The first character of the text `lead :: tail`, cut at the end of the text
(specification §4.1). -/
def firstPiece (lead : UInt8) (tail : Bytes) : Bytes :=
  lead :: tail.take (sequenceLength lead - 1)

/-- What follows the first character of the text `lead :: tail`. -/
def afterFirst (lead : UInt8) (tail : Bytes) : Bytes :=
  tail.drop (sequenceLength lead - 1)

/-- Every lead byte announces between one and four bytes. -/
theorem sequenceLength_bounds (lead : UInt8) :
    1 ≤ sequenceLength lead ∧ sequenceLength lead ≤ 4 := by
  unfold sequenceLength
  repeat' split
  all_goals decide

/-- Reading a character loses no byte. -/
@[simp]
theorem firstPiece_append_afterFirst (lead : UInt8) (tail : Bytes) :
    firstPiece lead tail ++ afterFirst lead tail = lead :: tail := by
  simp [firstPiece, afterFirst]

/-- What is left after a character is shorter than the text. -/
theorem length_afterFirst_lt (lead : UInt8) (tail : Bytes) :
    (afterFirst lead tail).length < (lead :: tail).length := by
  rw [afterFirst, List.length_drop, List.length_cons]
  omega

end Scriptlet.Utf8
