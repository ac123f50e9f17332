import Scriptlet.Syntax.Text

/-!
# Outlines

An outline shows a program over indented lines, as nested records and lists: of each statement
its kind, its place, its text and its bodies. Every member of a record and every item of a list
starts a line, so that any two programs can be compared line by line.
-/

namespace Scriptlet

/-- The word for the kind of a statement. -/
def Stmt.kindName : Stmt → Bytes
  | .declare .. => "VariableDeclaration"
  | .assign .. => "Assignment"
  | .print .. => "Print"
  | .evaluate .. => "ExpressionStatement"
  | .ifThen .. | .ifElse .. => "If"
  | .whileLoop .. => "While"
  | .forEach .. => "ForIn"
  | .breakLoop _ => "Break"
  | .continueLoop _ => "Continue"
  | .returnValue .. => "Return"
  | .function .. => "FunctionDeclaration"
  | .absent | .bare _ => "Statement"

namespace Outline

/-- How one byte of a text is written: quote and backslash behind a backslash, a newline as
an `n` behind one, every other byte as itself. -/
def escapeByte (c : UInt8) : Bytes :=
  if c = 0x0A then "\\n"
  else if c = 0x22 then "\\\""
  else if c = 0x5C then "\\\\"
  else [c]

/-- A text between double quotes. -/
def quoted (s : Bytes) : Bytes := "\"" ++ s.flatMap escapeByte ++ "\""

/-- A member of a record that is indented by `indent`: its name, a colon and its value. -/
def member (indent : Nat) (name value : Bytes) : Bytes :=
  Bytes.spaces indent ++ "  \"" ++ name ++ "\": " ++ value

/-- Members that are not the first of a record, each behind a comma. -/
def members (indent : Nat) (parts : List (Bytes × Bytes)) : Bytes :=
  parts.flatMap fun (name, value) ↦ (",\n" ++ member indent name value : Bytes)

/-- The record of a statement: its kind, its place and its text, and then its bodies, each under a
name. -/
def record (indent : Nat) (s : Stmt) (bodies : List (Bytes × Bytes)) : Bytes :=
  Bytes.spaces indent ++ "\x7b\n" ++
    member indent "nodeType" ("\"" ++ s.kindName ++ "\"") ++ ",\n" ++
    member indent "loc" (quoted s.location.text) ++ ",\n" ++
    member indent "source" (quoted s.text) ++ members indent bodies ++
    "\n" ++ Bytes.spaces indent ++ "\x7d"

end Outline

namespace Stmt

open Outline (record)

mutual

/-- The outline of a statement, every line of it indented by `indent` at least. -/
def dump (indent : Nat) : Stmt → Bytes
  | absent => Bytes.spaces indent ++ "null"
  | ifThen l condition body =>
    record indent (ifThen l condition body) [("then", dumpBody (indent + 2) body)]
  | ifElse l condition body otherwise =>
    record indent (ifElse l condition body otherwise)
      [("then", dumpBody (indent + 2) body), ("else", dumpBody (indent + 2) otherwise)]
  | whileLoop l condition body =>
    record indent (whileLoop l condition body) [("body", dumpBody (indent + 2) body)]
  | forEach l vars iterable body =>
    record indent (forEach l vars iterable body) [("body", dumpBody (indent + 2) body)]
  | function l name parameters body =>
    record indent (function l name parameters body) [("body", dumpBody (indent + 2) body)]
  | s => record indent s []

/-- The outlines of a body in brackets, the last of which is indented by `indent`. -/
def dumpBody (indent : Nat) : List Stmt → Bytes
  | [] => "[]"
  | s :: ss =>
    "[\n" ++ s.dump (indent + 2) ++ dumpRest (indent + 2) ss ++ "\n" ++ Bytes.spaces indent ++ "]"

/-- The outlines of the statements that are not the first of a body, each behind a comma. -/
def dumpRest (indent : Nat) : List Stmt → Bytes
  | [] => []
  | s :: ss => ",\n" ++ s.dump indent ++ dumpRest indent ss

end

end Stmt

/-- The outline of a program, every line of it indented by `indent` at least (specification §8). -/
def Program.dump (indent : Nat) (p : Program) : Bytes :=
  Bytes.spaces indent ++ "\x7b\n" ++
    Outline.member indent "type" "\"Program\"" ++ ",\n" ++
    Outline.member indent "loc" (Outline.quoted p.location.text) ++ ",\n" ++
    Outline.member indent "body" (Stmt.dumpBody (indent + 2) p.body) ++
    "\n" ++ Bytes.spaces indent ++ "\x7d\n"

/-- The outline of a program that may be missing. -/
def dumpProgram (indent : Nat) : Option Program → Bytes
  | none => "\x7b\x7d\n"
  | some p => p.dump indent

end Scriptlet
