import Scriptlet.Text.Bytes

/-!
# Quoted text

A string inside a rendered container stands between double quotes. Backslash, double quote,
newline and tab are written with a backslash; every other byte stands for itself.
-/

namespace Scriptlet.Bytes

/-- How one byte is written between quotes. -/
def escapeByte (c : UInt8) : Bytes :=
  if c = 0x5C then "\\\\"
  else if c = 0x22 then "\\\""
  else if c = 0x0A then "\\n"
  else if c = 0x09 then "\\t"
  else [c]

/-- The text between double quotes, special bytes escaped. -/
def quoted (s : Bytes) : Bytes := "\"" ++ s.flatMap escapeByte ++ "\""

end Scriptlet.Bytes
