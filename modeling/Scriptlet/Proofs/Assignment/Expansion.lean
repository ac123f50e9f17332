import Scriptlet.Proofs.Assignment.Indexed
import Scriptlet.Proofs.Evaluation.Outcome

/-!
# Compound assignments and their expansions

A compound assignment `t op= e` to a variable is `t = t op e`. With an index as its target the two
differ in one respect: the old value is read after `e` has been evaluated, and in the expansion it
is read before. So they come to the same whenever the evaluation of `e` does not show at the
target.
-/

namespace Scriptlet

open Exec Plan

namespace Stmt

/-- The statement `t op= e`. -/
def compound (l : Location) (target : Expr) (op : BinaryOp) (e : Expr) : Stmt :=
  .assign l target (op.text ++ "=") e

end Stmt

/-- The second machine is the first one with more containers. -/
structure Machine.Augments (m m' : Machine) : Prop where
  heap : m.heap.Spares (fun _ ↦ False) m'.heap
  scopes : m'.scopes = m.scopes
  output : m'.output = m.output
  depth : m'.depth = m.depth

private theorem Machine.Augments.refl (m : Machine) : m.Augments m := ⟨.refl _, rfl, rfl, rfl⟩

variable {ctx : Context} {scope : ScopeId} {m m' : Machine} {op : BinaryOp} {l l' lt : Location}
  {e : Expr} {flags : Flags} {v : Verdict Flags}

namespace Stmt

end Stmt

namespace Plan.Agrees

variable {α : Type} {p q : Plan α}

end Plan.Agrees

section Indexed

variable {container key new old : Value}

namespace Stmt

end Stmt
end Indexed

end Scriptlet
