import Scriptlet.Error
import Scriptlet.Syntax.Basic
import Scriptlet.Value.Heap

/-!
# Hosts

A program is run by a host, which may offer functions of its own for the program to call. What
such a function does is up to the host: between two requests to the evaluator it does whatever
it likes with the containers and with what the host remembers; it may call functions, evaluate
expressions and run programs while the call that it serves is still active, catch what fails
there and go on; and it may teach the evaluator further functions. It cannot reach the frames
of the active calls or the scopes that are open inside them.
-/

namespace Scriptlet

/-- Something that an evaluator can be taught; `Routine` is the type of host functions. -/
inductive Lesson (Routine : Type) where
  /-- The functions that a program declares. -/
  | program (p : Program)
  /-- A function of the host, under a name. -/
  | routine (name : Bytes) (r : Routine)

/-- What a host function can see. -/
structure View (Memory : Type) where
  /-- The number of active calls. -/
  depth : Nat
  heap : Heap
  /-- What the host remembers. -/
  memory : Memory
  /-- The values of the global variables. -/
  global? : Bytes → Option Value
  /-- Whether a script has declared a function. -/
  hasFunction : Bytes → Bool
  /-- Whether a built-in function is offered. -/
  hasBuiltin : Bytes → Bool

/-- What a host function makes of what it sees. -/
structure Deed (Memory : Type) where
  heap : Heap
  memory : Memory
  /-- What is written to the output. -/
  written : Bytes := []
  /-- The global variables that are declared, one after the other. -/
  declared : List (Bytes × Value) := []

/-- A request to the evaluator that may fail. Only some lessons may be taught by the way. -/
inductive Request {Routine : Type} (teaches : Lesson Routine → Prop) where
  | invoke (name : Bytes) (arguments : List Value) (site : Token)
  | evaluate (e : Expr)
  | load (p : Program) (allowed : teaches (.program p))
  | run (p : Program) (allowed : teaches (.program p)) (entry : Bytes)

/-- What a host function does, step by step (specification §4.3). -/
inductive Procedure (Routine Memory Thread : Type) (teaches : Lesson Routine → Prop) where
  /-- It returns a value. -/
  | answer (v : Value)
  /-- It fails with an error of its own. -/
  | fail (e : ScriptError)
  /-- It goes on as what it sees suggests. -/
  | look (next : View Memory → Procedure Routine Memory Thread teaches)
  /-- It changes something, then goes on. -/
  | act (deed : View Memory → Deed Memory) (next : Procedure Routine Memory Thread teaches)
  /-- It registers a host function, then goes on. -/
  | register (name : Bytes) (r : Routine) (allowed : teaches (.routine name r))
      (next : Procedure Routine Memory Thread teaches)
  /-- It makes a request, and goes on with the value or with the error that it has caught. -/
  | ask (request : Request teaches)
      (next : Except ScriptError Value → Procedure Routine Memory Thread teaches)
  /-- It calls a function whose value, or whose error, is its own. -/
  | handOver (name : Bytes) (arguments : List Value) (site : Token)
  /-- It goes on with a thread of its own, which need not ever end. -/
  | proceed (t : Thread)

/-- A host: the functions that it can offer, and what they do. -/
class Host where
  /-- The functions that can be offered. -/
  Routine : Type
  /-- What the host keeps in mind from one call of its functions to the next. -/
  Memory : Type
  /-- What its functions go on with in a loop. -/
  Thread : Type
  /-- The lessons that its functions may teach while a program runs. -/
  teaches : Lesson Routine → Prop
  /-- What it keeps in mind at first. -/
  initial : Memory
  /-- What a function does that is called under a name. -/
  serve : Routine → Bytes → List Value → Token → Procedure Routine Memory Thread teaches
  /-- What is done in a thread. -/
  resume : Thread → Procedure Routine Memory Thread teaches

namespace Host

variable [Host]

/-- What a function of the host does. -/
abbrev Script := Procedure Host.Routine Host.Memory Host.Thread Host.teaches

/-- A lesson that a function of the host may teach. -/
abbrev Teaching := { l : Lesson Host.Routine // Host.teaches l }

end Host
end Scriptlet
