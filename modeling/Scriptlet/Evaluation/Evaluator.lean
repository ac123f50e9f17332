import Scriptlet.Evaluation.Interpreter

/-!
# Evaluators

An evaluator keeps what outlives a single run: the functions it has been taught, its global
variables and what its host remembers. Every operation works on a heap that is handed in and
handed back, so several evaluators can share containers.
-/

namespace Scriptlet

variable [Host]

/-- Steps allowed to one operation; no run that ends in practice needs as many. -/
def ampleFuel : Nat := Nat.pow 2 62

/-- What an evaluator knows between operations. -/
structure Evaluator where
  context : Context
  scopes : Scopes
  depth : Nat
  /-- What the host of its functions remembers. -/
  memory : Host.Memory := Host.initial

/-- How an operation of an evaluator went. -/
structure Outcome (α : Type) where
  result : Except Stop α
  evaluator : Evaluator
  heap : Heap
  /-- What the operation wrote, also if it failed. -/
  output : Bytes

namespace Exec

/-- Runs the statements of a program other than its function declarations. A return at the
top level ends the program early. -/
def topLevel (ctx : Context) (p : Program) : Exec Unit :=
  discard <| runBody (execStmt ctx ampleFuel .global) p.topLevel {}

/-- Calls the function `entry` without arguments if the script has one. -/
def callEntry (ctx : Context) (entry : Bytes) (location : Location) : Exec Value := do
  if (← known ctx).functions.contains entry then
    callFunction ctx ampleFuel entry [] ⟨entry, location⟩
  else pure .none

end Exec

namespace Evaluator

/-- An evaluator that knows the usual built-in functions and nothing else. -/
def new (maxDepth : Nat) : Evaluator where
  context := { builtins := Builtin.defaultTable, maxDepth }
  scopes := (Scopes.enter {} none).2
  depth := 0

/-- The machine that an operation starts on. -/
def machine (ev : Evaluator) (h : Heap) : Machine :=
  { heap := h, scopes := ev.scopes, depth := ev.depth, memory := ev.memory }

/-- The evaluator behind an operation that leaves a machine. -/
def leftWith (ev : Evaluator) (m : Machine) : Evaluator where
  context := ev.context.after m.lessons
  scopes := m.scopes
  depth := m.depth
  memory := m.memory

/-- Runs a computation with what the evaluator knows. -/
def perform {α : Type} (ev : Evaluator) (h : Heap) (action : Context → Exec α) : Outcome α :=
  match action ev.context (ev.machine h) with
  | .ok a m => ⟨.ok a, ev.leftWith m, m.heap, m.output.toList⟩
  | .error stop m => ⟨.error stop, ev.leftWith m, m.heap, m.output.toList⟩

/-- Learns the functions of a program, as far as there is one. -/
def learn (ev : Evaluator) (p : Option Program) : Evaluator :=
  match p with
  | some p => { ev with context := ev.context.define p }
  | none => ev

/-- Learns a program's functions, then runs its other statements in the global scope (specification
§4.2). -/
def load (ev : Evaluator) (h : Heap) (p : Option Program) : Outcome Unit :=
  (ev.learn p).perform h fun ctx ↦
    match p with
    | some p => Exec.topLevel ctx p
    | none => pure ()

/-- Loads a program, then calls the function `entry` (specification §4.2). The call's place is the
program's. -/
def run (ev : Evaluator) (h : Heap) (p : Option Program) (entry : Bytes) : Outcome Value :=
  (ev.learn p).perform h fun ctx ↦ do
    match p with
    | some p => Exec.topLevel ctx p
    | none => pure ()
    Exec.callEntry ctx entry (p.elim {} (·.location))

/-- Calls a function by name (specification §4.2). -/
def invoke (ev : Evaluator) (h : Heap) (name : Bytes) (arguments : List Value) (site : Token) :
    Outcome Value :=
  ev.perform h fun ctx ↦ callFunction ctx ampleFuel name arguments site

/-- The value of an expression in the global scope. -/
def evaluate (ev : Evaluator) (h : Heap) (e : Expr) : Outcome Value :=
  ev.perform h fun ctx ↦ evalExpr ctx ampleFuel .global e

/-- Binds a global variable (specification §4.2). -/
def declare (ev : Evaluator) (name : Bytes) (v : Value) : Evaluator :=
  { ev with scopes := ev.scopes.bind .global name v }

/-- The value of a global variable. -/
def lookup (ev : Evaluator) (name : Bytes) : Except ScriptError Value :=
  match ev.scopes.lookup? .global name with
  | some v => .ok v
  | none => .error { cause := .unboundVariable name }

/-- Offers a host function of an evaluator under a name, in place of one that was offered before
(specification §4.3). -/
def register (ev : Evaluator) (name : Bytes) (r : Host.Routine) : Evaluator :=
  { ev with context := ev.context.offer name r }

/-- Whether a script has defined a function. -/
def hasFunction (ev : Evaluator) (name : Bytes) : Bool := ev.context.functions.contains name

/-- Whether a built-in function is offered. -/
def hasBuiltin (ev : Evaluator) (name : Bytes) : Bool := ev.context.builtins.contains name

end Evaluator
end Scriptlet
