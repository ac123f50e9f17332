import Scriptlet.Proofs.Evaluation.Moment
import Scriptlet.Proofs.Heap.Rewriting
import Scriptlet.Proofs.Locality.Intact
import Scriptlet.Proofs.Value.Failure

/-!
# Assignments by index

An assignment by index evaluates the container, the key and the value, each once and in this
order, and evaluates nothing else. What it does then is all or nothing: all checks are made on the
machine that the operands leave, and a failed one leaves this machine as it is; otherwise one place
of the container is written.
-/

namespace Scriptlet

open Exec Plan

namespace Plan

variable {ctx : Context} {fuel : Nat} {α β : Type} {p : Plan α} {rest : α → Plan β} {m m₁ : Machine}

variable {l : Location}

end Plan

namespace AssignOp

/-- The value that an assignment by index stores: the new one, or what is there combined with
it. -/
def stored (op : AssignOp) (h : Heap) (container key new : Value) : Except Cause Value :=
  match op with
  | .plain => .ok new
  | .compound op => do
    let current ← h.read container key
    h.binary op.text current new

/-- Why an assignment by index is not carried out although its operands have values. -/
inductive Refuses (op : AssignOp) (h : Heap) (container key new : Value) : Cause → Prop where
  | scalar (hc : container.isContainer = false) :
      Refuses op h container key new (.notIndexAssignable container.type)
  | stored {cause : Cause} (hc : container.isContainer = true)
      (hv : op.stored h container key new = .error cause) : Refuses op h container key new cause
  | write {v : Value} {cause : Cause} (hv : op.stored h container key new = .ok v)
      (hw : h.write container key v = .error cause) : Refuses op h container key new cause

/-- How an assignment by index ends on the machine that its operands leave: it is refused, and the
machine stays as it is, or one place is written and nothing else happens. -/
inductive Settles (op : AssignOp) (container key new : Value) (flags : Flags) (m : Machine) :
    Ending Flags → Prop where
  | refused {cause : Cause} {location : Location}
      (why : op.Refuses m.heap container key new cause)
      (kind : cause.kind ∈ [.arithmeticError, .indexOutOfRange, .keyNotFound, .notIndexable,
        .typeMismatch]) :
      Settles op container key new flags m (.error (.error { cause, location }) m)
  | written {v : Value} {h : Heap} (value : op.stored m.heap container key new = .ok v)
      (rewrites : m.heap.Rewrites container key v h) :
      Settles op container key new flags m (.ok flags { m with heap := h })

/-- How an assignment by index ends on a machine, and what it evaluates: the operands one after the
other, as long as they have values. -/
inductive Assigns (ctx : Context) (fuel : Nat) (scope : ScopeId) (object key value : Expr)
    (op : AssignOp) (flags : Flags) (m : Machine) : List Moment → Ending Flags → Prop where
  | object {stop : Stop} {m₁ : Machine}
      (ho : evalExpr ctx fuel scope object m = .error stop m₁) :
      Assigns ctx fuel scope object key value op flags m
        [⟨fuel, eval scope object, m⟩] (.error stop m₁)
  | key {c : Value} {stop : Stop} {m₁ m₂ : Machine}
      (ho : evalExpr ctx fuel scope object m = .ok c m₁)
      (hk : evalExpr ctx fuel scope key m₁ = .error stop m₂) :
      Assigns ctx fuel scope object key value op flags m
        [⟨fuel, eval scope object, m⟩, ⟨fuel, eval scope key, m₁⟩] (.error stop m₂)
  | value {c k : Value} {stop : Stop} {m₁ m₂ m₃ : Machine}
      (ho : evalExpr ctx fuel scope object m = .ok c m₁)
      (hk : evalExpr ctx fuel scope key m₁ = .ok k m₂)
      (hv : evalExpr ctx fuel scope value m₂ = .error stop m₃) :
      Assigns ctx fuel scope object key value op flags m
        [⟨fuel, eval scope object, m⟩, ⟨fuel, eval scope key, m₁⟩, ⟨fuel, eval scope value, m₂⟩]
        (.error stop m₃)
  | settled {c k new : Value} {m₁ m₂ m₃ : Machine} {r : Ending Flags}
      (ho : evalExpr ctx fuel scope object m = .ok c m₁)
      (hk : evalExpr ctx fuel scope key m₁ = .ok k m₂)
      (hv : evalExpr ctx fuel scope value m₂ = .ok new m₃)
      (settles : op.Settles c k new flags m₃ r) :
      Assigns ctx fuel scope object key value op flags m
        [⟨fuel, eval scope object, m⟩, ⟨fuel, eval scope key, m₁⟩, ⟨fuel, eval scope value, m₂⟩] r

variable {op : AssignOp} {h : Heap} {container key new : Value}

variable {ctx : Context} {fuel : Nat} {l lt : Location} {flags : Flags} {m : Machine}

end AssignOp

namespace Stmt

variable {π : Pairing} {ctx : Context} {m : Machine} {op : AssignOp}

end Stmt
end Scriptlet
