import Scriptlet.Proofs.Calls.Discipline
import Scriptlet.Proofs.Evaluation.Piece
import Scriptlet.Proofs.Session.Evolution

/-!
# What sessions reach

Between the operations of a session a host sees its heap, and while an evaluator carries out an
operation its script sees the heap as it is at that moment. These are the heaps that a session
reaches. All of them have evolved from the empty one.
-/

namespace Scriptlet

open Exec Plan

namespace Moment

variable {ctx : Context} {p q : Moment}

/-- Over a moment the heap evolves. -/
theorem Within.evolves (hp : p.Within ctx .all) :
    p.machine.heap.Evolves (p.ending ctx).machine.heap := by
  induction p using Moment.induction ctx with
  | enter p ih =>
  have hwithin {q : Moment} (hq : Enters ctx p q) : q.Within ctx .all :=
    hq.within (Territory.closed_all ctx) hp
  cases shape ctx p with
  | trial => exact hp.elim
  | piece fuel x m =>
    rcases Piece.heap_eq_or_edit hp with he | he
    · exact he ▸ .refl m.heap
    · exact he.evolves
  | seq fuel x rest m =>
    have hfirst := ih _ (.first fuel x rest m) (hwithin (.first fuel x rest m))
    simp only [ending, Plan.run, Bind.bind, EStateM.bind] at hfirst ⊢
    cases hr : x.run ctx fuel m with
    | ok a m₁ =>
      rw [hr] at hfirst
      exact hfirst.trans (ih _ (.next rest hr) (hwithin (.next rest hr)))
    | error stop m₁ =>
      rw [hr] at hfirst
      exact hfirst
  | still nothing stops => exact stops ▸ .refl p.machine.heap
  | @through _ q enters only found left =>
    rw [left, ← found]
    exact ih q enters (hwithin enters)

/-- The heap has evolved when a moment is entered. -/
theorem Enters.evolves (h : Enters ctx p q) (hp : p.Within ctx .all) :
    p.machine.heap.Evolves q.machine.heap := by
  cases h with
  | @next _ _ fuel x m m₁ a rest done =>
    have hfirst := (Within.evolves (p := ⟨fuel, x, m⟩) hp.1)
    simp only [ending, done] at hfirst
    exact hfirst
  | _ => exact .refl _

/-- So it has at every moment that a run passes through. -/
theorem Passes.evolves (h : Passes ctx p q) (hp : p.Within ctx .all) :
    p.machine.heap.Evolves q.machine.heap := by
  induction h with
  | refl => exact .refl _
  | tail hpassed hentered ih =>
    exact ih.trans (hentered.evolves (Passes.within (Territory.closed_all ctx) hpassed hp))

end Moment

namespace EvaluatorOperation

/-- What an operation asks of its evaluator, if that takes a run; `vs` are the values of its
literals. -/
def demand? (op : EvaluatorOperation) (vs : List Value) : Option Demand :=
  match op with
  | load p => some (.load p)
  | run p main _ => some (.run p main)
  | invoke name _ site _ => some (.invoke name vs site)
  | evaluate e _ => some (.evaluate e)
  | declare name _ => some (.declare name (vs.headD .none))
  | lookup name _ => some (.lookup name)
  | has _ | display _ | register .. => none

/-- What an evaluator knows while it carries an operation out; a program is learnt first. -/
def context (op : EvaluatorOperation) (ev : Evaluator) : Context :=
  match op with
  | load p | run p _ _ => (ev.learn p).context
  | _ => ev.context

/-- The moment in which an operation begins. -/
def start (op : EvaluatorOperation) (ev : Evaluator) (h : Heap) (vs : List Value) : Moment :=
  match op.demand? vs with
  | some d => d.start ev h
  | none => ⟨ampleFuel, pure Value.none, ev.machine h⟩

variable {op : EvaluatorOperation} {ev : Evaluator} {h : Heap} {vs : List Value} {d : Demand}

/-- An operation begins on the machine of its evaluator. -/
theorem machine_start (op : EvaluatorOperation) : (op.start ev h vs).machine = ev.machine h := by
  cases op with
  | load p | run p => cases p <;> rfl
  | _ => rfl

private theorem exists_perform_eq (ev : Evaluator) (h : Heap) (hd : op.demand? vs = some d) :
    op.context ev = (d.prepare ev).context ∧ op.start ev h vs = d.start ev h ∧
      ∃ f : Value → Result, op.perform ev h vs =
        { d.perform ev h with result := (d.perform ev h).result.map f } := by
  have hstart : op.start ev h vs = d.start ev h := by rw [start, hd]
  cases op with
  | load p =>
    cases hd
    refine ⟨rfl, hstart, fun _ ↦ .answer .ok, ?_⟩
    simp only [perform, Demand.perform]
    cases (ev.load h p).result <;> rfl
  | run | invoke | evaluate =>
    cases hd
    exact ⟨rfl, hstart, .value, rfl⟩
  | declare =>
    cases hd
    exact ⟨rfl, hstart, fun _ ↦ .answer .ok, rfl⟩
  | lookup name =>
    cases hd
    refine ⟨rfl, hstart, .value, ?_⟩
    simp only [perform, Demand.perform, quiet]
  | has | display | register => cases hd

/-- Whatever a session asks of an evaluator, it is left with as many active calls as it had. -/
theorem depth_perform (op : EvaluatorOperation) (ev : Evaluator) (h : Heap) (vs : List Value) :
    (op.perform ev h vs).evaluator.depth = ev.depth := by
  cases hd : op.demand? vs with
  | some d =>
    obtain ⟨-, -, f, hf⟩ := exists_perform_eq ev h hd
    rw [hf]
    exact d.depth_perform ev h
  | none =>
    cases op with
    | has | display | register => rfl
    | _ => cases hd

private theorem within_start (op : EvaluatorOperation) (ev : Evaluator) (h : Heap)
    (vs : List Value) : (op.start ev h vs).Within (op.context ev) .all := by
  have hprogram {ctx : Context} {fuel : Nat} (p : Option Program) (m : Machine) :
      (ofProgram p).Within ctx fuel .all m := by
    cases p with
    | none => exact within_pure () m
    | some p => exact (within_body (fun _ _ ↦ trivial) _ _ m).bind fun _ m₁ ↦ within_pure () m₁
  cases op with
  | load p => exact (hprogram p _).bind fun _ m₁ ↦ within_pure _ m₁
  | run p name into =>
    refine (hprogram p _).bind fun _ m₁ ↦ ?_
    simp only [entryCall, known_eq]
    exact Within.after (.pure _ m₁) fun now m₂ _ ↦ Within.ite trivial (within_pure _ m₂)
  | invoke | evaluate => exact trivial
  | lookup name into => exact .lookup trivial _ _
  | declare name v => exact Within.after (.declare _ _ _ _) fun _ m₁ _ ↦ within_pure _ m₁
  | has | display | register => exact within_pure _ _

end EvaluatorOperation

/-- Between the operations of a session no evaluator has a call active, however those before
ended. -/
theorem Session.every_depth_steps_start (evaluator : Bytes) (maxDepth : Nat)
    (ops : List Operation) :
    ((start evaluator maxDepth).steps ops).2.Every fun ev ↦ ev.depth = 0 :=
  every_steps_start (fun _ ↦ rfl) (fun op ev h vs hd ↦ (op.depth_perform ev h vs).trans hd)
    evaluator maxDepth ops

/-- Sessions that a host can have come to. -/
inductive Session.Reached : Session → Prop where
  | after (evaluator : Bytes) (maxDepth : Nat) (ops : List Operation) :
      Reached ((start evaluator maxDepth).steps ops).2

/-- The moments that a session passes through when one of its evaluators is asked for something,
each with what can be called then. -/
inductive Moment.Reached : Context → Moment → Prop where
  | during {s : Session} {name : Bytes} {ev : Evaluator} {op : EvaluatorOperation}
      {vs : List Value} {h : Heap} {q : Moment} (session : s.Reached)
      (known : s.evaluators[name]? = some ev)
      (built : Literal.buildAll s.registers op.literals s.heap = .ok (vs, h))
      (passes : Passes (op.context ev) (op.start ev h vs) q) : Reached (op.context ev) q

/-- The heaps that hosts and scripts come to see. -/
inductive Heap.Reached : Heap → Prop where
  | between {s : Session} (session : s.Reached) : Reached s.heap
  | during {ctx : Context} {q : Moment} (moment : q.Reached ctx) : Reached q.machine.heap

section

variable {s : Session} {ctx : Context} {q : Moment} {h : Heap}

/-- The dictionaries of a session are well-formed. -/
theorem Session.Reached.wf (hs : s.Reached) : s.heap.WF := by
  cases hs with
  | after evaluator maxDepth ops =>
    exact ((start evaluator maxDepth).evolves_steps ops).wf Heap.wf_empty

/-- So are those that a script sees. -/
theorem Moment.Reached.wf (hq : q.Reached ctx) : q.machine.heap.WF := by
  cases hq with
  | @during s name ev op vs h q session known built passes =>
    have hbuilt : h.WF := (Literal.evolves_buildAll _ built).wf session.wf
    have hstart : (op.start ev h vs).machine.heap = h := congrArg _ op.machine_start
    rw [← hstart] at hbuilt
    exact (passes.evolves (op.within_start ev h vs)).wf hbuilt

/-- The dictionaries of every heap that is reached are well-formed. -/
theorem Heap.Reached.wf (hh : h.Reached) : h.WF := by
  cases hh with
  | between session => exact session.wf
  | during moment => exact moment.wf

end
end Scriptlet
