import Scriptlet.Source.Basic

/-!
# Locations

Every node of a program and every report carries the place it speaks of: a file name, a
line, a column and a length, with the source text where there is one to quote.
-/

namespace Scriptlet

/-- A place in a script. Lines and columns count from one, but any integer may be given. -/
structure Location where
  file : Bytes := []
  line : Int := 1
  col : Int := 1
  length : Int := 0
  source : Option Source := none
  deriving DecidableEq, Inhabited

namespace Location

/-- The last column covered, which is the first one when the length is below two. -/
def endCol (l : Location) : Int := l.col + max 0 (l.length - 1)

/-- The name to print for the file; a place without a file belongs to `<script>`. -/
def fileName (l : Location) : Bytes := if l.file = [] then "<script>" else l.file

/-- File, line and column, with colons between. -/
def text (l : Location) : Bytes :=
  l.fileName ++ ":" ++ Bytes.ofInt l.line ++ ":" ++ Bytes.ofInt l.col

/-- The quoted line, or a remark that there is no source to quote. -/
def trace (l : Location) : Bytes :=
  match l.source with
  | none => "(source context unavailable)"
  | some s => s.quote l.line l.col l.length

end Location

/-- A lexeme and the place it was read at. -/
structure Token where
  lexeme : Bytes := []
  location : Location := {}
  deriving DecidableEq, Inhabited

/-- The place, then the lexeme in brackets. -/
def Token.text (t : Token) : Bytes := t.location.text ++ " [" ++ t.lexeme ++ "]"

end Scriptlet
