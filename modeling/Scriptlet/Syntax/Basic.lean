import Scriptlet.Source.Location
import Scriptlet.Value.Basic

/-!
# Programs

A program is a tree of statements and expressions. Every node has its own place in the
script. A child may be absent where a host left it out; what an absent child means is fixed
by the rules that read the tree.
-/

namespace Scriptlet

/-- An expression (specification §6). Operators are kept as they were spelt. -/
inductive Expr where
  | absent
  | int (location : Location) (n : Int64)
  | str (location : Location) (s : Bytes)
  | bool (location : Location) (b : Bool)
  | protected none (location : Location)
  | ident (location : Location) (name : Bytes)
  | unary (location : Location) (op : Bytes) (operand : Expr)
  | binary (location : Location) (op : Bytes) (left right : Expr)
  | index (location : Location) (object key : Expr)
  | array (location : Location) (elements : List Expr)
  | dict (location : Location) (entries : List (Expr × Expr))
  /-- A call by name; a receiver that is present becomes the first argument. -/
  | call (location : Location) (receiver : Expr) (callee : Bytes) (arguments : List Expr)
  /-- A node of no particular kind. -/
  | bare (location : Location)

instance : Inhabited Expr where default := .absent

/-- The names that a loop binds: one for elements or keys, two for keys and values. -/
inductive LoopVars where
  | single (name : Bytes)
  | pair (key value : Bytes)
  deriving DecidableEq

/-- A statement (specification §6). -/
inductive Stmt where
  | absent
  | declare (location : Location) (name : Bytes) (value : Expr)
  | assign (location : Location) (target : Expr) (op : Bytes) (value : Expr)
  | print (location : Location) (arguments : List Expr)
  | evaluate (location : Location) (expression : Expr)
  | ifThen (location : Location) (condition : Expr) (body : List Stmt)
  | ifElse (location : Location) (condition : Expr) (body otherwise : List Stmt)
  | whileLoop (location : Location) (condition : Expr) (body : List Stmt)
  | forEach (location : Location) (vars : LoopVars) (iterable : Expr) (body : List Stmt)
  | breakLoop (location : Location)
  | continueLoop (location : Location)
  | returnValue (location : Location) (value : Expr)
  | function (location : Location) (name : Bytes) (parameters : List Bytes) (body : List Stmt)
  /-- A node of no particular kind. -/
  | bare (location : Location)

instance : Inhabited Stmt where default := .absent

/-- A program (specification §6): its statements, and a place of its own. -/
structure Program where
  location : Location
  body : List Stmt
  deriving Inhabited

/-- A function that a program defines. -/
structure Function where
  name : Bytes
  parameters : List Bytes
  body : List Stmt
  deriving Inhabited

namespace Expr

/-- The place of an expression; an absent one has the default place. -/
def location : Expr → Location
  | absent => {}
  | int l _ | str l _ | bool l _ | .none l | ident l _ | unary l _ _ | binary l _ _ _
  | index l _ _ | array l _ | dict l _ | call l _ _ _ | bare l => l

/-- The lexeme a node was read from; composite nodes without an operator have none. -/
def lexeme : Expr → Bytes
  | int _ n => Bytes.ofInt64 n
  | str _ s => s
  | bool _ b => Bytes.ofBool b
  | .none _ => "none"
  | ident _ name => name
  | unary _ op _ => op
  | binary _ op _ _ => op
  | absent | index .. | array .. | dict .. | call .. | bare _ => []

/-- Lexeme and place of an expression together. -/
def token (e : Expr) : Token := ⟨e.lexeme, e.location⟩

/-- Whether an expression is there at all. -/
def isPresent : Expr → Bool
  | absent => false
  | _ => true

/-- What a call passes: its arguments, behind the receiver if there is one. -/
def operands (receiver : Expr) (arguments : List Expr) : List Expr :=
  if receiver.isPresent then receiver :: arguments else arguments

end Expr

namespace Stmt

/-- The place of a statement; an absent one has the default place. -/
def location : Stmt → Location
  | absent => {}
  | declare l _ _ | assign l _ _ _ | print l _ | evaluate l _ | ifThen l _ _ | ifElse l _ _ _
  | whileLoop l _ _ | forEach l _ _ _ | breakLoop l | continueLoop l | returnValue l _
  | function l _ _ _ | bare l => l

/-- The lexeme a node was read from: an assignment's operator, a function's name. -/
def lexeme : Stmt → Bytes
  | assign _ _ op _ => op
  | function _ name _ _ => name
  | _ => []

/-- Lexeme and place of a statement together. -/
def token (s : Stmt) : Token := ⟨s.lexeme, s.location⟩

/-- The function that a statement declares, if it declares one. -/
def function? : Stmt → Option Function
  | function _ name parameters body => some ⟨name, parameters, body⟩
  | _ => none

end Stmt

/-- The functions that a program declares at its top level, in order. -/
def Program.functions (p : Program) : List Function := p.body.filterMap (·.function?)

/-- The statements that a program runs when it is loaded: all but its functions, in order. -/
def Program.topLevel (p : Program) : List Stmt := p.body.filter (·.function?.isNone)

end Scriptlet
