import Scriptlet.Syntax.Basic

/-!
# The text of nodes

Each node has a one-line text, used in reports and outlines. Expressions are written out in
full with every operator in parentheses; the bodies of statements are only hinted at.
-/

namespace Scriptlet

namespace Expr

mutual

/-- The text of an expression. -/
def text : Expr → Bytes
  | absent => "<null>"
  | int _ n => Bytes.ofInt64 n
  | str _ s => "\"" ++ s ++ "\""
  | bool _ b => Bytes.ofBool b
  | .none _ => "none"
  | ident _ name => name
  | unary _ op operand => "(" ++ op ++ operand.text ++ ")"
  | binary _ op left right => "(" ++ left.text ++ " " ++ op ++ " " ++ right.text ++ ")"
  | index _ object key => object.text ++ "[" ++ key.text ++ "]"
  | array _ elements => "[" ++ Bytes.commaSeparated (texts elements) ++ "]"
  | dict _ entries => "\x7b" ++ Bytes.commaSeparated (entryTexts entries) ++ "\x7d"
  | call _ absent callee arguments =>
    callee ++ "(" ++ Bytes.commaSeparated (texts arguments) ++ ")"
  | call _ receiver callee arguments =>
    receiver.text ++ "." ++ callee ++ "(" ++ Bytes.commaSeparated (texts arguments) ++ ")"
  | bare _ => "<node>"

/-- The texts of a list of expressions. -/
def texts : List Expr → List Bytes
  | [] => []
  | e :: es => e.text :: texts es

/-- The texts of dictionary entries: key, colon, value. -/
def entryTexts : List (Expr × Expr) → List Bytes
  | [] => []
  | (key, value) :: entries => (key.text ++ ": " ++ value.text) :: entryTexts entries

end

/-- The text of a child, or another one where the child is absent. -/
def textOr (ifAbsent : Bytes) : Expr → Bytes
  | absent => ifAbsent
  | e => e.text

/-- The texts of a list are the texts of its members. -/
theorem texts_eq_map (es : List Expr) : texts es = es.map text := by
  induction es with
  | nil => rw [texts, List.map_nil]
  | cons e es ih => rw [texts, List.map_cons, ih]

end Expr

/-- The names of a loop, as they stand after `for`. -/
def LoopVars.text : LoopVars → Bytes
  | single name => name
  | pair key value => key ++ ", " ++ value

namespace Stmt

/-- Stands for a body. -/
def bodyText : Bytes := " \x7b ... \x7d"

/-- The text of a statement. An absent one has no text. -/
def text : Stmt → Bytes
  | absent => []
  | declare _ name .absent => "var " ++ name
  | declare _ name value => "var " ++ name ++ " = " ++ value.text
  | assign _ target op value => target.text ++ " " ++ op ++ " " ++ value.text
  | print _ arguments => "print(" ++ Bytes.commaSeparated (arguments.map Expr.text) ++ ")"
  | evaluate _ expression => expression.text
  | ifThen _ condition _ => "if " ++ condition.textOr "<cond>" ++ bodyText
  | ifElse _ condition _ _ => "if " ++ condition.textOr "<cond>" ++ bodyText ++ " else" ++ bodyText
  | whileLoop _ condition _ => "while " ++ condition.textOr "<cond>" ++ bodyText
  | forEach _ vars iterable _ =>
    "for " ++ vars.text ++ " in " ++ iterable.textOr "<iterable>" ++ bodyText
  | breakLoop _ => "break"
  | continueLoop _ => "continue"
  | returnValue _ .absent => "return"
  | returnValue _ value => "return " ++ value.text
  | function _ name parameters _ =>
    "fn " ++ name ++ "(" ++ Bytes.commaSeparated parameters ++ ")" ++ bodyText
  | bare _ => "<node>"

end Stmt

/-- The text of a program tells its length only. -/
def Program.text (p : Program) : Bytes :=
  "<program: " ++ Bytes.ofNat p.body.length ++ " statements>"

end Scriptlet
