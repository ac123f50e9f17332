import Std.Data.TreeMap
import Scriptlet.Value.Basic

/-!
# Scopes

A scope binds names to values and may lie inside a parent scope. Scopes are numbered in the
order in which they were opened, so a parent always has a smaller number than its children,
and the way from a scope outwards is finite. A name means what the nearest scope on that way
binds it to.
-/

namespace Scriptlet

/-- The number of a scope. -/
structure ScopeId where
  index : Nat
  deriving DecidableEq, Inhabited

/-- The names that one scope binds, and the scope around it. -/
structure Scope where
  bindings : Std.TreeMap Bytes Value := ∅
  parent : Option ScopeId := none

/-- Every scope that has been opened (specification §3). -/
structure Scopes where
  all : Array Scope := #[]

instance : Inhabited Scopes where default := {}

namespace Scopes

/-- The scope with a number; one that was never opened binds nothing. -/
def scope (s : Scopes) (i : ScopeId) : Scope := s.all.getD i.index {}

/-- Opens a scope inside another one, or at the outside. -/
def enter (s : Scopes) (parent : Option ScopeId) : ScopeId × Scopes :=
  (⟨s.all.size⟩, ⟨s.all.push { parent }⟩)

/-- Forgets a scope and every scope opened after it. -/
def leave (s : Scopes) (i : ScopeId) : Scopes := ⟨s.all.take i.index⟩

/-- The value that a scope itself binds a name to. -/
def binding? (s : Scopes) (i : ScopeId) (name : Bytes) : Option Value :=
  (s.scope i).bindings[name]?

/-- Whether a scope itself binds a name. -/
def binds (s : Scopes) (i : ScopeId) (name : Bytes) : Bool := (s.scope i).bindings.contains name

/-- The scope and those around it, from the inside out. -/
def chain (s : Scopes) (i : ScopeId) : List ScopeId :=
  i ::
    match (s.scope i).parent with
    | some p => if p.index < i.index then s.chain p else []
    | none => []
termination_by i.index

/-- Whether a name is bound in a scope or around it. -/
def has (s : Scopes) (i : ScopeId) (name : Bytes) : Bool := (s.chain i).any (s.binds · name)

/-- The nearest scope that binds a name. -/
def owner? (s : Scopes) (i : ScopeId) (name : Bytes) : Option ScopeId :=
  (s.chain i).find? (s.binds · name)

/-- The value of a name, as seen from a scope. -/
def lookup? (s : Scopes) (i : ScopeId) (name : Bytes) : Option Value :=
  (s.chain i).findSome? (s.binding? · name)

/-- Binds a name in one scope, over an older binding there (specification §4.2). -/
def bind (s : Scopes) (i : ScopeId) (name : Bytes) (v : Value) : Scopes :=
  ⟨s.all.modify i.index fun scope ↦ { scope with bindings := scope.bindings.insert name v }⟩

/-- Gives a name another value in the nearest scope that binds it (specification §4.2); a name that
is bound nowhere is bound here. -/
def assign (s : Scopes) (i : ScopeId) (name : Bytes) (v : Value) : Scopes :=
  s.bind ((s.owner? i name).getD i) name v

/-- Binds names one after the other. -/
def bindAll (s : Scopes) (i : ScopeId) (bindings : List (Bytes × Value)) : Scopes :=
  bindings.foldl (fun s (name, v) ↦ s.bind i name v) s

/-- A scope binds a name exactly when it has a value for it. -/
theorem binds_eq_isSome (s : Scopes) (i : ScopeId) (name : Bytes) :
    s.binds i name = (s.binding? i name).isSome := by
  simp [binds, binding?]

/-- The way outwards starts at the scope itself. -/
theorem mem_chain_self (s : Scopes) (i : ScopeId) : i ∈ s.chain i := by
  rw [chain]
  exact List.mem_cons_self

/-- A name that the scope itself binds is found there. -/
theorem owner?_of_binds (s : Scopes) (i : ScopeId) (name : Bytes) (h : s.binds i name = true) :
    s.owner? i name = some i := by
  rw [owner?, chain]
  simp [h]

end Scopes
end Scriptlet
