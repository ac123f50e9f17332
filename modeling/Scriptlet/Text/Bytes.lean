/-!
# Byte text

Names, string values and every text the language writes are sequences of bytes, which
need not be valid UTF-8. This module names that type, embeds string literals in it, and
gives numbers their decimal text.
-/

namespace Scriptlet

/-- Text as the language sees it: any sequence of bytes. -/
abbrev Bytes := List UInt8

namespace Bytes

/-- The UTF-8 encoding of a string. -/
def ofString (s : String) : Bytes := s.toUTF8.data.toList

/-- A string literal stands for its UTF-8 bytes wherever byte text is expected. -/
instance : Coe String Bytes where coe := ofString

/-- Shortest decimal text of a natural number. -/
def ofNat (n : Nat) : Bytes := (Nat.toDigits 10 n).map fun c ↦ c.toUInt8

/-- Decimal text of an integer: a minus sign before the digits of a negative one. -/
def ofInt : Int → Bytes
  | .ofNat n => ofNat n
  | .negSucc n => "-" ++ ofNat (n + 1)

/-- Decimal text of a 64-bit integer. -/
def ofInt64 (n : Int64) : Bytes := ofInt n.toInt

/-- The word `true` or the word `false`. -/
def ofBool (b : Bool) : Bytes := if b then "true" else "false"

/-- A run of `n` spaces. -/
def spaces (n : Nat) : Bytes := List.replicate n 0x20

/-- The parts in order, with `", "` between neighbours. -/
def commaSeparated (parts : List Bytes) : Bytes := List.intercalate ", " parts

/-- Whether a byte is a decimal digit. -/
def isDigit (c : UInt8) : Bool := 0x30 ≤ c && c ≤ 0x39

/-- The text before its first zero byte, which is all that a zero-terminated text carries. -/
def beforeZero (s : Bytes) : Bytes := s.takeWhile (· != 0)

/-- No part gives no text. -/
@[simp]
theorem commaSeparated_nil : commaSeparated [] = [] := rfl

/-- A single part needs no comma. -/
@[simp]
theorem commaSeparated_singleton (part : Bytes) : commaSeparated [part] = part := by
  simp [commaSeparated, List.intercalate]

/-- A comma and a blank stand between the first part and the others. -/
theorem commaSeparated_cons_cons (part next : Bytes) (parts : List Bytes) :
    commaSeparated (part :: next :: parts) = part ++ ", " ++ commaSeparated (next :: parts) := by
  simp [commaSeparated, List.intercalate, List.intersperse]

end Bytes
end Scriptlet
