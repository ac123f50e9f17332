import Scriptlet.Proofs.Evaluation.Ending

/-!
# What evaluators are asked for

Whatever an evaluator is asked for by the program that it is part of, it carries a plan out on a
machine that holds the given heap and what the evaluator knows, and keeps what the machine then
holds. What can be said of all plans can be said of all that an evaluator does.
-/

namespace Scriptlet

variable [Host]

open Exec

namespace Plan

/-- The statements of a program, as far as there is one. -/
def ofProgram (p : Option Program) : Plan Unit :=
  match p with
  | some p => do
    let _ ← body .global p.topLevel {}
    pure ()
  | none => pure ()

/-- The call of the function `entry` without arguments, if the script has one by then. -/
def entryCall (entry : Bytes) (location : Location) (ctx : Context) : Plan Value := do
  let now ← piece (known ctx)
  if now.functions.contains entry then call entry [] ⟨entry, location⟩ else pure .none

/-- The statements of a program, then the call of its entry. -/
def running (p : Option Program) (entry : Bytes) (ctx : Context) : Plan Value := do
  ofProgram p
  entryCall entry (p.elim {} (·.location)) ctx

variable {ctx : Context} {fuel : Nat}

private theorem run_ofProgram (p : Program) :
    (ofProgram (some p)).run ctx ampleFuel = topLevel ctx p := by
  simp only [ofProgram, topLevel, run_bind, run_body, run_pure, discard_eq]

/-- Carrying out the call of the entry. -/
theorem run_entryCall (entry : Bytes) (l : Location) :
    (entryCall entry l ctx).run ctx ampleFuel = callEntry ctx entry l := by
  simp only [entryCall, callEntry, run_bind, run_piece, run_ite, run_pure]
  rfl

end Plan

open Plan

namespace Evaluator

variable {α : Type}

/-- What an evaluator makes of the ending of a run. -/
def outcome (ev : Evaluator) (r : Ending α) : Outcome α where
  result := r.result
  evaluator := ev.leftWith r.machine
  heap := r.machine.heap
  output := r.machine.output.toList

/-- An operation comes to what its computation ends with, and keeps what the machine then
holds. -/
theorem perform_eq (ev : Evaluator) (h : Heap) (action : Context → Exec α) :
    ev.perform h action = ev.outcome (action ev.context (ev.machine h)) := by
  rw [perform]
  cases action ev.context (ev.machine h) <;> rfl

/-- Carries out a plan with what the evaluator knows. -/
def carryOut (ev : Evaluator) (fuel : Nat) (h : Heap) (p : Context → Plan α) : Outcome α :=
  ev.perform h fun ctx ↦ (p ctx).run ctx fuel

/-- Loading a program. -/
theorem load_eq (ev : Evaluator) (h : Heap) (p : Option Program) :
    ev.load h p = (ev.learn p).carryOut ampleFuel h fun _ ↦ ofProgram p := by
  cases p with
  | none => rfl
  | some p => simp only [load, carryOut, run_ofProgram]

/-- Running a program. -/
theorem run_eq (ev : Evaluator) (h : Heap) (p : Option Program) (entry : Bytes) :
    ev.run h p entry = (ev.learn p).carryOut ampleFuel h (running p entry) := by
  cases p with
  | none =>
    simp only [run, carryOut, running, run_bind, run_entryCall]
    rfl
  | some p => simp only [run, carryOut, running, run_bind, run_ofProgram, run_entryCall]

/-- Learning a program changes neither scopes nor depth. -/
theorem learn_eq (ev : Evaluator) (p : Option Program) :
    ev.learn p = { ev with context := (ev.learn p).context } := by
  cases p <;> rfl

end Evaluator

/-- What an evaluator is asked for by the program that it is part of. -/
inductive Demand where
  | load (p : Option Program)
  | run (p : Option Program) (entry : Bytes)
  | invoke (name : Bytes) (arguments : List Value) (site : Token)
  | evaluate (e : Expr)
  | declare (name : Bytes) (v : Value)
  | lookup (name : Bytes)
  | register (name : Bytes) (r : Host.Routine)

namespace Demand

/-- Does what is asked for. -/
def perform (d : Demand) (ev : Evaluator) (h : Heap) : Outcome Value :=
  match d with
  | load p =>
    let o := ev.load h p
    { o with result := o.result.map fun _ ↦ .none }
  | run p main => ev.run h p main
  | invoke name arguments site => ev.invoke h name arguments site
  | evaluate e => ev.evaluate h e
  | declare name v => ⟨.ok .none, ev.declare name v, h, []⟩
  | lookup name => ⟨(ev.lookup name).mapError .error, ev, h, []⟩
  | register name r => ⟨.ok .none, ev.register name r, h, []⟩

/-- The evaluator with what it is handed: it learns before it does anything else. -/
def prepare (d : Demand) (ev : Evaluator) : Evaluator :=
  match d with
  | load p | run p _ => ev.learn p
  | register name r => ev.register name r
  | _ => ev

/-- What is to be done then. -/
def plan (d : Demand) (ctx : Context) : Plan Value :=
  match d with
  | load p => do
    ofProgram p
    pure .none
  | run p main => running p main ctx
  | invoke name arguments site => call name arguments site
  | evaluate e => eval .global e
  | declare name v => do
    piece (Exec.declare .global name v)
    pure .none
  | lookup name => piece (Exec.lookup .global name {})
  | register .. => pure .none

/-- An evaluator does what is asked for by carrying out the plan. -/
theorem perform_eq (d : Demand) (ev : Evaluator) (h : Heap) :
    d.perform ev h = (d.prepare ev).carryOut ampleFuel h d.plan := by
  cases d with
  | load p =>
    simp only [perform, Evaluator.load_eq, Evaluator.carryOut, Evaluator.perform_eq, plan, run_bind,
      prepare]
    simp only [Bind.bind, EStateM.bind]
    cases (ofProgram p).run (ev.learn p).context ampleFuel ((ev.learn p).machine h) <;> rfl
  | run p main => exact ev.run_eq h p main
  | lookup name =>
    simp only [perform, Evaluator.carryOut, Evaluator.perform_eq, plan, run_piece, prepare,
      Evaluator.lookup, Exec.lookup, Evaluator.machine]
    cases ev.scopes.lookup? .global name <;> rfl
  | _ => rfl

end Demand
end Scriptlet
