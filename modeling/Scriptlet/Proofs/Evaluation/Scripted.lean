import Scriptlet.Evaluation.Scripted
import Scriptlet.Proofs.Evaluation.Plan

/-!
# Plans with a scripted host

What a function of a scripted host does is a plan of two parts: the call is written down, then it
is answered. Such a host has no threads to go on with.
-/

namespace Scriptlet

open Exec Plan

/-- What is done for a call that has been written down. -/
def HostAnswer.plan (arguments : List Value) (site : Token) : HostAnswer → Plan Value
  | value v => pure v
  | failure detail => piece (raise (.stated .typeMismatch detail) site.location)
  | call callee => .call callee arguments site

/-- What a function of a scripted host does. -/
theorem Builtin.plan_host (ctx : Context) (name : Bytes) (answer : HostAnswer)
    (arguments : List Value) (site : Token) :
    (host name answer).plan ctx arguments site = (do
      piece (logCall name arguments site)
      answer.plan arguments site) := by
  cases answer <;> rfl

/-- An evaluator with a scripted host learns nothing while it runs a program. -/
@[simp]
theorem Evaluator.context_leftWith (ev : Evaluator) (m : Machine) :
    (ev.leftWith m).context = ev.context := ev.context.after_lessons m

section Calls

variable {ctx : Context} {name : Bytes} {arguments : List Value} {site : Token}

/-- What a call is resolved to does not depend on lessons, for there are none. -/
@[simp]
theorem Context.resolve_lessons (m : Machine) :
    ctx.resolve name arguments site m.lessons = ctx.resolve name arguments site := by
  rw [m.lessons_eq]

/-- A call is resolved in the context as it is. -/
theorem Context.resolve_eq :
    ctx.resolve name arguments site =
      match ctx.functions[name]? with
      | some f =>
        if arguments.length = f.parameters.length then .ok ⟨f.name, f.plan arguments⟩
        else .error (.functionArity f.name f.parameters.length arguments.length)
      | none =>
        match ctx.builtins[name]? with
        | some b => .ok ⟨name, b.plan ctx arguments site⟩
        | none => .error (.undefinedFunction name) := by
  rw [resolve, after, List.foldl_nil]
  cases ctx.functions[name]? with
  | some f => rfl
  | none => cases ctx.builtins[name]? <;> rfl

/-- So what a call goes to is known beforehand. -/
theorem callFunction_eq_resolve (fuel : Nat) :
    callFunction ctx (fuel + 1) name arguments site =
      match ctx.resolve name arguments site with
      | .ok callee => withFrame ctx callee.label site.location (callee.body.run ctx fuel)
      | .error cause => raise cause site.location := by
  funext m
  rw [callFunction_succ, ctx.resolve_lessons]
  cases ctx.resolve name arguments site <;> rfl

end Calls
end Scriptlet
