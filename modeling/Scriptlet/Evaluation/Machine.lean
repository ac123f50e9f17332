import Scriptlet.Evaluation.Host
import Scriptlet.Scope

/-!
# The evaluating machine

Evaluation reads a context, the functions that could be called and the limit when it began, and
works on a machine: the heap, the open scopes, what was written so far, the number of active
calls, what the host remembers and what its functions have taught since. A computation ends
with a result or stops at an error; both leave the machine as it then is, so what happened
before an error is not undone.
-/

namespace Scriptlet

variable [Host]

/-- A function that is not written in the language. -/
inductive Builtin where
  | print
  | len
  | abs
  | contains
  | remove
  | push
  | keys
  | type
  /-- A function that the host has added under some name. -/
  | host (name : Bytes) (routine : Host.Routine)

/-- What can be called, and how deep calls may nest. -/
structure Context where
  functions : Std.TreeMap Bytes Function := ∅
  builtins : Std.TreeMap Bytes Builtin := ∅
  maxDepth : Nat := 256

namespace Context

/-- Adds the functions that a program declares; a later declaration of a name wins. -/
def define (ctx : Context) (p : Program) : Context :=
  { ctx with functions := p.functions.foldl (fun table f ↦ table.insert f.name f) ctx.functions }

/-- Offers a host function under a name, in place of one that was offered before. -/
def offer (ctx : Context) (name : Bytes) (r : Host.Routine) : Context :=
  { ctx with builtins := ctx.builtins.insert name (.host name r) }

/-- Takes a lesson in. -/
def learn (ctx : Context) (l : Lesson Host.Routine) : Context :=
  match l with
  | .program p => ctx.define p
  | .routine name r => ctx.offer name r

/-- What is known after some lessons. -/
def after (ctx : Context) (lessons : List Host.Teaching) : Context :=
  lessons.foldl (fun ctx l ↦ ctx.learn l.val) ctx

end Context

/-- The state of an evaluation. -/
structure Machine where
  heap : Heap := {}
  scopes : Scopes := {}
  output : Array UInt8 := #[]
  depth : Nat := 0
  /-- What the host remembers. -/
  memory : Host.Memory := Host.initial
  /-- What host functions have taught since the evaluation began. -/
  lessons : List Host.Teaching := []

instance : Inhabited Machine where default := {}

/-- Why a computation stops without a result. -/
inductive Stop where
  | error (e : ScriptError)
  /-- The allotted number of steps was too small. -/
  | outOfFuel
  deriving DecidableEq

/-- A computation on the machine. -/
abbrev Exec := EStateM Stop Machine

/-- The outermost scope of an evaluation. -/
def ScopeId.global : ScopeId := ⟨0⟩

namespace Exec

/-- Stops at an error. -/
def raise {α : Type} (cause : Cause) (location : Location) : Exec α :=
  throw (.error { cause, location })

/-- The result of a pure operation; its failure becomes an error at a place. -/
def lift {α : Type} (location : Location) : Except Cause α → Exec α
  | .ok a => pure a
  | .error cause => raise cause location

/-- Puts a new array into the heap. -/
def newArray (elements : List Value) : Exec Value := fun m ↦
  let (r, heap) := m.heap.newArray elements.toArray
  .ok (.array r) { m with heap }

/-- Puts a new dictionary into the heap. -/
def newDict (d : Dictionary) : Exec Value := fun m ↦
  let (r, heap) := m.heap.newDict d
  .ok (.dict r) { m with heap }

/-- Something read off the heap. -/
def inspect {α : Type} (f : Heap → α) : Exec α := fun m ↦ .ok (f m.heap) m

/-- Changes the heap. -/
def modifyHeap (f : Heap → Heap) : Exec Unit := fun m ↦ .ok () { m with heap := f m.heap }

/-- Appends text to the output. -/
def write (text : Bytes) : Exec Unit := fun m ↦
  .ok () { m with output := m.output.appendList text }

/-- The value of a variable. -/
def lookup (scope : ScopeId) (name : Bytes) (location : Location) : Exec Value := fun m ↦
  match m.scopes.lookup? scope name with
  | some v => .ok v m
  | none => .error (.error { cause := .unboundVariable name, location }) m

/-- Binds a name in a scope. -/
def declare (scope : ScopeId) (name : Bytes) (v : Value) : Exec Unit := fun m ↦
  .ok () { m with scopes := m.scopes.bind scope name v }

/-- Binds names in a scope, one after the other. -/
def bindAll (scope : ScopeId) (bindings : List (Bytes × Value)) : Exec Unit := fun m ↦
  .ok () { m with scopes := m.scopes.bindAll scope bindings }

/-- Gives a variable another value, where it is bound or else in this scope. -/
def assign (scope : ScopeId) (name : Bytes) (v : Value) : Exec Unit := fun m ↦
  .ok () { m with scopes := m.scopes.assign scope name v }

/-- Changes the machine that a computation leaves, whether it ended or stopped. -/
def andThenAlways {α : Type} (action : Exec α) (f : Machine → Machine) : Exec α := fun m ↦
  match action m with
  | .ok a m => .ok a (f m)
  | .error stop m => .error stop (f m)

/-- Runs a computation in a scope of its own inside `parent`; the scope is gone afterwards. -/
def withScope {α : Type} (parent : ScopeId) (action : ScopeId → Exec α) : Exec α := fun m ↦
  let (inner, scopes) := m.scopes.enter (some parent)
  andThenAlways (action inner) (fun m ↦ { m with scopes := m.scopes.leave inner })
    { m with scopes }

/-- A computation whose error is caught. -/
def attempt {α : Type} (action : Exec α) : Exec (Except ScriptError α) := fun m ↦
  match action m with
  | .ok a m => .ok (.ok a) m
  | .error (.error e) m => .ok (.error e) m
  | .error .outOfFuel m => .error .outOfFuel m

/-- What is known by now, in an evaluation that has begun in a context. -/
def known (ctx : Context) : Exec Context := fun m ↦ .ok (ctx.after m.lessons) m

/-- Takes in what a host function teaches. -/
def teach (l : Host.Teaching) : Exec Unit := fun m ↦
  .ok () { m with lessons := m.lessons ++ [l] }

/-- What there is to be seen of the machine. -/
def view (ctx : Context) (m : Machine) : View Host.Memory where
  depth := m.depth
  heap := m.heap
  memory := m.memory
  global? := m.scopes.lookup? .global
  hasFunction := (ctx.after m.lessons).functions.contains
  hasBuiltin := (ctx.after m.lessons).builtins.contains

/-- What a host function sees. -/
def look (ctx : Context) : Exec (View Host.Memory) := fun m ↦ .ok (view ctx m) m

/-- Does what a host function makes of what it sees. -/
def act (ctx : Context) (deed : View Host.Memory → Deed Host.Memory) : Exec Unit := fun m ↦
  let d := deed (view ctx m)
  .ok () { m with
    heap := d.heap, memory := d.memory, output := m.output.appendList d.written
    scopes := m.scopes.bindAll .global d.declared }

/-- Runs a computation as one more active call, unless that would be one too many (specification
§4.2). -/
def withFrame {α : Type} (ctx : Context) (callee : Bytes) (location : Location)
    (action : Exec α) : Exec α := fun m ↦
  if ctx.maxDepth ≤ m.depth then raise (.depthExceeded ctx.maxDepth callee) location m
  else
    andThenAlways action (fun m ↦ { m with depth := m.depth - 1 })
      { m with depth := m.depth + 1 }

end Exec
end Scriptlet
