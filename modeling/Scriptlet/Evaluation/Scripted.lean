import Scriptlet.Evaluation.Builtins

/-!
# Scripted hosts

The host of a session offers functions that are laid down when they are registered: each of them
writes its calls down, and then returns a value, fails, or hands over to another function. Such
a host remembers nothing and teaches nothing.
-/

namespace Scriptlet

/-- How a function of a scripted host answers a call. -/
inductive HostAnswer where
  /-- It returns a value, the same one every time. -/
  | value (v : Value)
  /-- It fails in its own words. -/
  | failure (detail : Bytes)
  /-- It calls another function with the same arguments and returns what that returns. -/
  | call (callee : Bytes)
  deriving DecidableEq

namespace HostAnswer

/-- What is written down of a call. -/
def callText (name : Bytes) (arguments : List Value) (site : Token) (h : Heap) (depth : Nat) :
    Bytes :=
  name ++ "(" ++ Bytes.commaSeparated (arguments.map h.debugText) ++ ") at " ++ site.text ++
    " depth " ++ Bytes.ofNat depth ++ "\n"

/-- What is done behind that. -/
def procedure (arguments : List Value) (site : Token) :
    HostAnswer → Procedure HostAnswer Unit Empty fun _ ↦ False
  | value v => .answer v
  | failure detail => .fail { cause := .stated .typeMismatch detail, location := site.location }
  | call callee => .handOver callee arguments site

end HostAnswer

/-- The scripted host. -/
instance Host.scripted : Host where
  Routine := HostAnswer
  Memory := Unit
  Thread := Empty
  teaches _ := False
  initial := ()
  serve answer name arguments site :=
    .act (fun v ↦ ⟨v.heap, v.memory, HostAnswer.callText name arguments site v.heap v.depth, []⟩)
      (answer.procedure arguments site)
  resume t := t.elim

/-- A scripted host teaches nothing. -/
theorem Machine.lessons_eq (m : Machine) : m.lessons = [] := by
  cases h : m.lessons with
  | nil => rfl
  | cons l ls => exact absurd l.property id

/-- So what is known does not change. -/
@[simp]
theorem Context.after_lessons (ctx : Context) (m : Machine) : ctx.after m.lessons = ctx := by
  rw [m.lessons_eq]
  rfl

/-- What can be called is the context itself. -/
@[simp]
theorem Exec.known_eq (ctx : Context) : Exec.known ctx = pure ctx := by
  funext m
  rw [Exec.known, ctx.after_lessons]
  rfl

namespace Builtin

/-- Writes the call of a host function down. -/
def logCall (name : Bytes) (arguments : List Value) (site : Token) : Exec Unit := fun m ↦
  Exec.write (HostAnswer.callText name arguments site m.heap m.depth) m

/-- Writes the call down, then answers it; `invoke` calls a function by name. -/
def runHost (invoke : Bytes → List Value → Token → Exec Value) (name : Bytes)
    (answer : HostAnswer) (arguments : List Value) (site : Token) : Exec Value := do
  logCall name arguments site
  match answer with
  | .value v => pure v
  | .failure detail => Exec.raise (.stated .typeMismatch detail) site.location
  | .call callee => invoke callee arguments site

/-- That is what a function of a scripted host does. -/
theorem run_host (s : Services) (name : Bytes) (answer : HostAnswer) (arguments : List Value)
    (site : Token) : (host name answer).run s arguments site =
      runHost s.invoke name answer arguments site := by
  cases answer <;> rfl

end Builtin
end Scriptlet
