import Scriptlet.Evaluation.Evaluator
import Scriptlet.Evaluation.Scripted
import Scriptlet.Value.Release

/-!
# Sessions

A host works in a session: one heap, values kept in named registers, walks under way, named
scopes, and evaluators. What the host writes down as a value is built into the heap when it
is used.
-/

namespace Scriptlet

/-- A value as a host writes it down. -/
inductive Literal where
  | protected none
  | bool (b : Bool)
  | int (n : Int64)
  | str (s : Bytes)
  /-- A new array. -/
  | array (elements : List Literal)
  /-- A new dictionary, its entries written one after the other. -/
  | dict (entries : List (Literal × Literal))
  /-- The value in a register. -/
  | register (name : Bytes)
  /-- A value inside `count` new arrays, each holding only the next. -/
  | inArrays (count : Nat) (inner : Literal)
  /-- A value inside `count` new dictionaries, each holding only the next, under one key. -/
  | inDicts (count : Nat) (inner : Literal)

instance : Inhabited Literal where default := .none

/-- Everything a host has at hand. -/
structure Session where
  heap : Heap := {}
  registers : Std.TreeMap Bytes Value := ∅
  walks : Std.TreeMap Bytes Walk := ∅
  /-- Scopes that the host has made for itself. -/
  scopes : Scopes := {}
  scopeNames : Std.TreeMap Bytes ScopeId := ∅
  evaluators : Std.TreeMap Bytes Evaluator := ∅

instance : Inhabited Session where default := {}

/-- The values that an evaluator holds on to. -/
def Evaluator.held (ev : Evaluator) : List Value :=
  ev.scopes.all.toList.flatMap (·.bindings.values) ++
    ev.context.builtins.values.filterMap fun b ↦
      match b with
      | .host _ (.value v) => some v
      | _ => none

namespace Heap

/-- A value inside a number of new arrays. -/
def wrapInArrays : Nat → Value → Heap → Value × Heap
  | 0, v, h => (v, h)
  | n + 1, v, h =>
    let (r, h) := h.newArray #[v]
    wrapInArrays n (.array r) h

/-- A value inside a number of new dictionaries, each under the key `k`. -/
def wrapInDicts : Nat → Value → Heap → Value × Heap
  | 0, v, h => (v, h)
  | n + 1, v, h =>
    let (r, h) := h.newDict (Dictionary.set {} (.str "k") v)
    wrapInDicts n (.dict r) h

end Heap

namespace Literal

mutual

/-- Builds a value into the heap. It fails where a dictionary is given a value that is no
key. -/
def build (registers : Std.TreeMap Bytes Value) (l : Literal) (h : Heap) :
    Except ScriptError (Value × Heap) :=
  match l with
  | .none => .ok (.none, h)
  | bool b => .ok (.bool b, h)
  | int n => .ok (.int n, h)
  | str s => .ok (.str s, h)
  | array elements => do
    let (vs, h) ← buildAll registers elements h
    let (r, h) := h.newArray vs.toArray
    .ok (.array r, h)
  | dict entries => do
    let (d, h) ← buildEntries registers entries {} h
    let (r, h) := h.newDict d
    .ok (.dict r, h)
  | register name => .ok (registers.getD name .none, h)
  | inArrays count inner => do
    let (v, h) ← build registers inner h
    .ok (Heap.wrapInArrays count v h)
  | inDicts count inner => do
    let (v, h) ← build registers inner h
    .ok (Heap.wrapInDicts count v h)

/-- Builds values from left to right. -/
def buildAll (registers : Std.TreeMap Bytes Value) (ls : List Literal) (h : Heap) :
    Except ScriptError (List Value × Heap) :=
  match ls with
  | [] => .ok ([], h)
  | l :: ls => do
    let (v, h) ← build registers l h
    let (vs, h) ← buildAll registers ls h
    .ok (v :: vs, h)

/-- Builds entries into a dictionary, key before value. -/
def buildEntries (registers : Std.TreeMap Bytes Value) (entries : List (Literal × Literal))
    (d : Dictionary) (h : Heap) : Except ScriptError (Dictionary × Heap) :=
  match entries with
  | [] => .ok (d, h)
  | (key, value) :: entries => do
    let (k, h) ← build registers key h
    let (v, h) ← build registers value h
    match dictKey k with
    | .ok k => buildEntries registers entries (d.set k v) h
    | .error cause => .error { cause }

end

end Literal

namespace Session

/-- A fresh session with one evaluator. -/
def start (evaluator : Bytes) (maxDepth : Nat) : Session where
  evaluators := (∅ : Std.TreeMap Bytes Evaluator).insert evaluator (Evaluator.new maxDepth)

/-- The values that the session holds on to outside the heap. -/
def roots (s : Session) : List Value :=
  s.registers.values ++
    (s.walks.values.filterMap fun w ↦
      match w.cursor with
      | .array r _ _ => some (.array r)
      | .dict r _ _ => some (.dict r)
      | _ => none) ++
    s.scopes.all.toList.flatMap (·.bindings.values) ++
    s.evaluators.values.flatMap (·.held)

/-- The name that a scope goes by at present; one without a name goes by the empty one. -/
def scopeName (s : Session) (i : ScopeId) : Bytes :=
  ((s.scopeNames.toList.find? (·.2 = i)).map (·.1)).getD []

end Session
end Scriptlet
