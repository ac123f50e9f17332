import Scriptlet.Proofs.Evaluation.Operations
import Scriptlet.Proofs.DeadCode.Tracking
import Scriptlet.Session.Step

/-!
# Dead code is irrelevant

An evaluator that is given scripts and one that is given the scripts without dead code answer a
host in the same way: whatever they are asked for, either both go on for ever or both come to the
same result, with the same heap, scopes, output and number of active calls.
-/

namespace Scriptlet

open Exec Plan

namespace Context

variable {ctx ctx' : Context}

private theorem Pruned.refl (ctx : Context) : ctx.Pruned ctx where
  functions name := by
    cases ctx.functions[name]? with
    | none => exact .none
    | some f => exact .some (.refl f)
  builtins := rfl
  maxDepth := rfl

private theorem Pruned.contains_eq (hctx : ctx.Pruned ctx') (name : Bytes) :
    ctx'.functions.contains name = ctx.functions.contains name := by
  have hf := hctx.functions name
  rw [Std.TreeMap.contains_eq_isSome_getElem?, Std.TreeMap.contains_eq_isSome_getElem?]
  generalize ctx.functions[name]? = f? at hf
  generalize ctx'.functions[name]? = f'? at hf
  cases hf <;> rfl

private theorem Pruned.define (hctx : ctx.Pruned ctx') {p p' : Program} (hp : p.Pruned p') :
    (ctx.define p).Pruned (ctx'.define p') := by
  refine ⟨?_, hctx.builtins, hctx.maxDepth⟩
  simp only [Context.define]
  have htable := hctx.functions
  generalize ctx.functions = table at htable
  generalize ctx'.functions = table' at htable
  have hfs := hp.functions
  generalize p.functions = fs at hfs
  generalize p'.functions = fs' at hfs
  induction hfs generalizing table table' with
  | nil => exact htable
  | @cons f f' fs fs' hf _ ih =>
    refine ih _ _ fun name ↦ ?_
    rw [Std.TreeMap.getElem?_insert, Std.TreeMap.getElem?_insert, hf.name]
    split
    · exact .some hf
    · exact htable name

end Context

/-- The evaluator `ev'` is in the same state as `ev`, with functions rid of dead code. -/
structure Evaluator.Pruned (ev ev' : Evaluator) : Prop where
  context : ev.context.Pruned ev'.context
  scopes : ev'.scopes = ev.scopes
  depth : ev'.depth = ev.depth

namespace Outcome

variable {α β : Type}

/-- Whether an operation has ended. -/
def Finished (o : Outcome α) : Prop := o.result ≠ .error .outOfFuel

instance (o : Outcome α) : Decidable o.Finished :=
  match h : o.result with
  | .error .outOfFuel => isFalse (absurd h)
  | .ok _ => isTrue (by rw [Finished, h]; rintro ⟨⟩)
  | .error (.error _) => isTrue (by rw [Finished, h]; rintro ⟨⟩)

/-- Two operations have ended in the same way, and the evaluators behave alike afterwards. -/
structure Same (o o' : Outcome α) : Prop where
  result : o'.result = o.result
  heap : o'.heap = o.heap
  output : o'.output = o.output
  evaluator : o.evaluator.Pruned o'.evaluator

/-- The outcome with another result. -/
def map (f : α → β) (o : Outcome α) : Outcome β := { o with result := o.result.map f }

/-- Two operations that are given some fuel come to the same, if they come to anything. -/
structure Chained (o o' : Nat → Outcome α) : Prop where
  forth : ∀ n, (o n).Finished → (o n).Same (o' n)
  back : ∀ n, (o' n).Finished → (o (n + 1)).Same (o' n)

private theorem Same.map {o o' : Outcome α} (h : o.Same o') (f : α → β) :
    (o.map f).Same (o'.map f) where
  result := congrArg (Except.map f) h.result
  heap := h.heap
  output := h.output
  evaluator := h.evaluator

private theorem finished_map_iff (f : α → β) (o : Outcome α) : (o.map f).Finished ↔ o.Finished := by
  simp only [Finished, map]
  cases o.result <;> simp [Except.map]

private theorem Chained.map {o o' : Nat → Outcome α} (h : Chained o o') (f : α → β) :
    Chained (fun n ↦ (o n).map f) fun n ↦ (o' n).map f where
  forth n hn := (h.forth n ((finished_map_iff f _).mp hn)).map f
  back n hn := (h.back n ((finished_map_iff f _).mp hn)).map f

private theorem Chained.of_same {o o' : Outcome α} (h : o.Same o') :
    Chained (fun _ ↦ o) fun _ ↦ o' where
  forth _ _ := h
  back _ _ := h

end Outcome

namespace Evaluator

variable {ev ev' : Evaluator} {α : Type}

private theorem Pruned.learn (hev : ev.Pruned ev') {p p' : Option Program}
    (hp : Option.Rel Program.Pruned p p') : (ev.learn p).Pruned (ev'.learn p') := by
  cases hp with
  | some hp => exact ⟨hev.context.define hp, hev.scopes, hev.depth⟩
  | none => exact hev

private theorem Pruned.declare (hev : ev.Pruned ev') (name : Bytes) (v : Value) :
    (ev.declare name v).Pruned (ev'.declare name v) :=
  ⟨hev.context, congrArg (·.bind .global name v) hev.scopes, hev.depth⟩

private theorem Pruned.register (hev : ev.Pruned ev') (name : Bytes) (answer : HostAnswer) :
    (ev.register name answer).Pruned (ev'.register name answer) :=
  ⟨⟨hev.context.functions, congrArg (·.insert name (.host name answer)) hev.context.builtins,
    hev.context.maxDepth⟩, hev.scopes, hev.depth⟩

end Evaluator

namespace EvaluatorOperation

/-- An operation with a program rid of dead code, if it has one. -/
inductive Pruned : EvaluatorOperation → EvaluatorOperation → Prop where
  | refl (op : EvaluatorOperation) : Pruned op op
  | load {p p' : Option Program} (program : Option.Rel Program.Pruned p p') :
      Pruned (.load p) (.load p')
  | run {p p' : Option Program} (program : Option.Rel Program.Pruned p p') (entry : Bytes)
      (into : Option Bytes) : Pruned (.run p entry into) (.run p' entry into)

section Step

variable {ev ev' : Evaluator} {p p' : Option Program}

end Step

end EvaluatorOperation
end Scriptlet
