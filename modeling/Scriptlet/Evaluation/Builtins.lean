import Scriptlet.Evaluation.Machine
import Scriptlet.Value.Arithmetic
import Scriptlet.Value.Indexing
import Scriptlet.Value.Rendering

/-!
# Built-in functions

Each built-in function of the language checks the number of its arguments first, then their
types from left to right. Every error is raised at the place of the call. A host function does
what its procedure says.
-/

namespace Scriptlet

variable [Host]

namespace Builtin

/-- The name under which a function is offered, which its errors speak of. -/
def name : Builtin → Bytes
  | print => "print"
  | len => "len"
  | abs => "abs"
  | contains => "contains"
  | remove => "remove"
  | push => "push"
  | keys => "keys"
  | type => "type"
  | host name _ => name

/-- The functions that every evaluation offers (specification §4.3). -/
def defaults : List Builtin := [print, len, abs, contains, remove, push, keys, type]

/-- The functions that every evaluation offers, by name. -/
def defaultTable : Std.TreeMap Bytes Builtin :=
  defaults.foldl (fun table b ↦ table.insert b.name b) ∅

/-- What a function of the language gives back: the value that it returns, the heap that it
leaves and what it writes. -/
structure Response where
  value : Value
  heap : Heap
  written : Bytes := []

/-- The failure because of the number of arguments. -/
def wrongArity (b : Builtin) (expected : Nat) (arguments : List Value) : Except Cause Response :=
  .error (.builtinArity b.name expected arguments.length)

/-- The failure because of the type of an argument. -/
def wrongType (b : Builtin) (expected : Bytes) (got : Value) : Except Cause Response :=
  .error (.builtinArgument b.name expected got.type)

/-- Writes the arguments next to one another on a line (specification §4.3). -/
def respondPrint (arguments : List Value) (h : Heap) : Except Cause Response :=
  .ok ⟨.none, h, (arguments.map h.displayText).flatten ++ "\n"⟩

/-- The number of bytes, elements or entries (specification §4.3). -/
def respondLen (arguments : List Value) (h : Heap) : Except Cause Response :=
  match arguments with
  | [.str s] => .ok { value := .int (Int64.ofNat s.length), heap := h }
  | [.array r] => .ok { value := .int (Int64.ofNat (h.array r).size), heap := h }
  | [.dict r] => .ok { value := .int (Int64.ofNat (h.dict r).size), heap := h }
  | [v] => wrongType len "a `string`, `array` or `dictionary`" v
  | _ => wrongArity len 1 arguments

/-- The absolute value of one integer (specification §4.3). -/
def respondAbs (arguments : List Value) (h : Heap) : Except Cause Response :=
  match arguments with
  | [.int n] => do
    let v ← absInt n
    .ok { value := v, heap := h }
  | [v] => wrongType abs "an `int`" v
  | _ => wrongArity abs 1 arguments

/-- Whether a dictionary has a key (specification §4.3). -/
def respondContains (arguments : List Value) (h : Heap) : Except Cause Response :=
  match arguments with
  | [.dict r, key] => do
    let k ← dictKey key
    .ok { value := .bool ((h.dict r).contains k), heap := h }
  | [v, _] => wrongType contains "a `dictionary`" v
  | _ => wrongArity contains 2 arguments

/-- Takes an entry out of a dictionary and returns its value (specification §4.3). -/
def respondRemove (arguments : List Value) (h : Heap) : Except Cause Response :=
  match arguments with
  | [.dict r, key] => do
    let k ← dictKey key
    match (h.dict r).remove? k with
    | some (v, rest) => .ok { value := v, heap := h.modifyDict r fun _ ↦ rest }
    | none => .error (.keyNotFound k (h.dict r).size)
  | [v, _] => wrongType remove "a `dictionary`" v
  | _ => wrongArity remove 2 arguments

/-- Appends an element to an array (specification §4.3). -/
def respondPush (arguments : List Value) (h : Heap) : Except Cause Response :=
  match arguments with
  | [.array r, v] => .ok { value := .none, heap := h.modifyArray r (·.push v) }
  | [v, _] => wrongType push "an `array`" v
  | _ => wrongArity push 2 arguments

/-- The keys of a dictionary, as a new array (specification §4.3). -/
def respondKeys (arguments : List Value) (h : Heap) : Except Cause Response :=
  match arguments with
  | [.dict r] =>
    let (ks, heap) := h.newArray ((h.dict r).keys.map Key.toValue).toArray
    .ok { value := .array ks, heap }
  | [v] => wrongType keys "a `dictionary`" v
  | _ => wrongArity keys 1 arguments

/-- The word for the type of a value (specification §4.3). -/
def respondType (arguments : List Value) (h : Heap) : Except Cause Response :=
  match arguments with
  | [v] => .ok { value := .str v.type.text, heap := h }
  | _ => wrongArity type 1 arguments

/-- Gives the response of a function of the language to a call at `site`. -/
def reply (site : Token) (respond : Heap → Except Cause Response) : Exec Value := fun m ↦
  match respond m.heap with
  | .ok r => .ok r.value { m with heap := r.heap, output := m.output.appendList r.written }
  | .error cause => Exec.raise cause site.location m

end Builtin

/-- What an evaluation does for a host function. -/
structure Services where
  /-- What was known when the evaluation began. -/
  context : Context
  invoke : Bytes → List Value → Token → Exec Value
  evaluate : Expr → Exec Value
  /-- Runs statements in the global scope. -/
  execute : List Stmt → Exec Unit
  resume : Host.Thread → Exec Value

/-- Learns the functions of a program, then runs its other statements. -/
def Services.load (s : Services) (p : Program) (allowed : Host.teaches (.program p)) :
    Exec Unit := do
  Exec.teach ⟨.program p, allowed⟩
  s.execute p.topLevel

/-- Carries a request out. -/
def Request.exec (s : Services) : Request Host.teaches → Exec Value
  | .invoke name arguments site => s.invoke name arguments site
  | .evaluate e => s.evaluate e
  | .load p allowed => do
    s.load p allowed
    pure .none
  | .run p allowed entry => do
    s.load p allowed
    if (← Exec.known s.context).functions.contains entry then
      s.invoke entry [] ⟨entry, p.location⟩
    else pure .none

/-- Carries a procedure out. -/
def Procedure.exec (s : Services) : Host.Script → Exec Value
  | .answer v => pure v
  | .fail e => throw (.error e)
  | .look next => do
    let v ← Exec.look s.context
    (next v).exec s
  | .act deed next => do
    Exec.act s.context deed
    next.exec s
  | .register name r allowed next => do
    Exec.teach ⟨.routine name r, allowed⟩
    next.exec s
  | .ask request next => do
    let answer ← Exec.attempt (request.exec s)
    (next answer).exec s
  | .handOver name arguments site => s.invoke name arguments site
  | .proceed t => s.resume t

namespace Builtin

/-- What a built-in function does when called at `site`. -/
def run (s : Services) (b : Builtin) (arguments : List Value) (site : Token) : Exec Value :=
  match b with
  | print => reply site (respondPrint arguments)
  | len => reply site (respondLen arguments)
  | abs => reply site (respondAbs arguments)
  | contains => reply site (respondContains arguments)
  | remove => reply site (respondRemove arguments)
  | push => reply site (respondPush arguments)
  | keys => reply site (respondKeys arguments)
  | type => reply site (respondType arguments)
  | host name routine => (Host.serve routine name arguments site).exec s

/-- The functions of the language, each with its response to some arguments. All but these are
functions of the host. -/
inductive Native (arguments : List Value) : Builtin → (Heap → Except Cause Response) → Prop where
  | print : Native arguments print (respondPrint arguments)
  | len : Native arguments len (respondLen arguments)
  | abs : Native arguments abs (respondAbs arguments)
  | contains : Native arguments contains (respondContains arguments)
  | remove : Native arguments remove (respondRemove arguments)
  | push : Native arguments push (respondPush arguments)
  | keys : Native arguments keys (respondKeys arguments)
  | type : Native arguments type (respondType arguments)

/-- A built-in function is one of the language or one of the host. -/
theorem native_or_host (arguments : List Value) (b : Builtin) :
    (∃ respond, Native arguments b respond) ∨ ∃ name routine, b = host name routine := by
  cases b with
  | print => exact .inl ⟨_, .print⟩
  | len => exact .inl ⟨_, .len⟩
  | abs => exact .inl ⟨_, .abs⟩
  | contains => exact .inl ⟨_, .contains⟩
  | remove => exact .inl ⟨_, .remove⟩
  | push => exact .inl ⟨_, .push⟩
  | keys => exact .inl ⟨_, .keys⟩
  | type => exact .inl ⟨_, .type⟩
  | host name routine => exact .inr ⟨name, routine, rfl⟩

/-- A function of the language gives its response, whatever the evaluation could do for it. -/
theorem Native.run_eq {b : Builtin} {arguments : List Value}
    {respond : Heap → Except Cause Response} (h : Native arguments b respond) (s : Services)
    (site : Token) : b.run s arguments site = reply site respond := by
  cases h <;> rfl

end Builtin
end Scriptlet
