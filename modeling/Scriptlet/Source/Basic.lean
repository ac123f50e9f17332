import Std.Data.TreeMap
import Scriptlet.Text.Bytes

/-!
# Source text

A script's text is kept so that a report can quote the line it speaks of. Lines are
numbered from one; carriage returns never belong to a line.
-/

namespace Scriptlet

/-- Lines under their numbers. -/
abbrev LineMap := Std.TreeMap Int Bytes

/-- Reads a text on to its end, where `line` is what has been read of the line numbered `n` and
`done` are the lines before it. A newline ends a line; what is left over at the end is a line
unless it is empty. -/
def LineMap.read (done : LineMap) (n : Int) (line : Array UInt8) : Bytes → LineMap
  | [] => if line.isEmpty then done else done.insert n line.toList
  | c :: rest =>
    if c = 0x0A then read (done.insert n line.toList) (n + 1) #[] rest
    else if c = 0x0D then read done n line rest
    else read done n (line.push c) rest

/-- A script's name and its text. -/
structure Source where
  name : Bytes
  text : Bytes
  deriving DecidableEq, Inhabited

namespace Source

/-- The lines of the text under their numbers. -/
def lineMap (s : Source) : LineMap := LineMap.read {} 1 #[] s.text

/-- The line numbered `n`, if the text has it. -/
def line? (s : Source) (n : Int) : Option Bytes := s.lineMap[n]?

/-- The number of lines. -/
def lineCount (s : Source) : Nat := s.lineMap.size

/-- The lines in the order of their numbers. -/
def lines (s : Source) : List Bytes := s.lineMap.toList.map (·.2)

/-- What stands before a quoted line: its number between a star and a bar. -/
def margin (n : Int) : Bytes := " * " ++ Bytes.ofInt n ++ " | "

/-- The mark under `length` columns; it covers one column at least. -/
def carets (length : Int) : Bytes := List.replicate (max 1 length.toNat) 0x5E

/-- The line `n` with carets under `length` of its columns from `col` on;
a line that the text lacks is only named. -/
def quote (s : Source) (n col length : Int) : Bytes :=
  match s.line? n with
  | none => margin n ++ "(line not available)"
  | some line =>
    margin n ++ line ++ "\n" ++ Bytes.spaces ((margin n).length + (col - 1).toNat) ++
      carets length

/-- A line that the text lacks is never quoted. -/
theorem quote_of_line?_eq_none (s : Source) (n col length : Int) (h : s.line? n = none) :
    s.quote n col length = margin n ++ "(line not available)" := by
  simp [quote, h]

end Source
end Scriptlet
