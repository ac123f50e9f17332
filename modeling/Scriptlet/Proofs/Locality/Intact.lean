import Scriptlet.Proofs.Locality.Closure

/-!
# Intact machines

A machine is intact if its dictionaries are well-formed and no handle dangles: what its variables,
its containers and the functions that can be called hold, is there. Every evaluator of a session
starts on such a machine, and evaluation leaves one.
-/

namespace Scriptlet

open Exec Plan

variable {π : Pairing} {ctx : Context} {m : Machine}

/-- All handles that are in use name containers of the heap, which are paired with themselves. -/
structure Machine.Intact (π : Pairing) (ctx : Context) (m : Machine) : Prop where
  wf : m.heap.WF
  linked : m.Linked π m
  context : Alike π ctx ctx

namespace Machine.Intact

/-- A machine with nothing on it is intact. -/
theorem empty : Intact (fun _ _ ↦ False) {} {} where
  wf := Heap.wf_empty
  linked := ⟨⟨False.elim, False.elim, False.elim, False.elim, False.elim⟩, .nil, rfl, rfl⟩
  context := ⟨rfl, fun _ ↦ .none, rfl⟩

/-- A handle that is in use names a container of the heap. -/
theorem has (hm : m.Intact π ctx) {v : Value} (hv : Alike π v v) {c : Container}
    (hc : v.container? = some c) : m.heap.Has c := by
  obtain ⟨d, -, hp⟩ := Value.Alike.paired hv hc
  exact hm.linked.heap.has_left hp

/-- A statement leaves an intact machine, however it ends. -/
theorem execStmt (hm : m.Intact π ctx) (fuel : Nat) (scope : ScopeId) (s : Stmt) {flags : Flags}
    (hflags : Alike π flags flags) :
    ∃ π', π ≤ π' ∧ (Ending.machine (execStmt ctx fuel scope s flags m)).Intact π' ctx := by
  have hends := ((goAlike ctx ctx fuel).task hm.context (.stmt scope s hflags)).ends (le_refl π)
    hm.linked
  have hkeeps := (stable_evolves.keeps ctx fuel).stmt scope s flags m
  simp only [Task.run] at hends
  generalize Scriptlet.execStmt ctx fuel scope s flags m = r at hends hkeeps
  cases hends with
  | ok grown linked value =>
    exact ⟨_, grown.le, hkeeps.wf hm.wf, linked, hm.context.mono grown.le⟩
  | error stop grown linked =>
    exact ⟨_, grown.le, hkeeps.wf hm.wf, linked, hm.context.mono grown.le⟩

end Machine.Intact

/-- Whatever a host does, its evaluators start on intact machines. -/
theorem Session.exists_intact_steps_start (evaluator : Bytes) (maxDepth : Nat)
    (ops : List Operation) {name : Bytes} {ev : Evaluator}
    (hev : ((start evaluator maxDepth).steps ops).2.evaluators[name]? = some ev) :
    ∃ π, (ev.machine ((start evaluator maxDepth).steps ops).2.heap).Intact π ev.context := by
  have hw := ((start evaluator maxDepth).evolves_steps ops).wf Heap.wf_empty
  obtain ⟨π, hs⟩ := exists_closed_steps_start evaluator maxDepth ops
  have halike := hs.alike.evaluators name trivial
  rw [hev] at halike
  have hself : Evaluator.Alike π ev ev := Option.rel_some_some.mp halike
  exact ⟨π, hw, ⟨hs.linked, hself.scopes, rfl, rfl⟩, hself.context⟩

end Scriptlet
