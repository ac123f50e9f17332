import Scriptlet.Proofs.Evaluation.Operations
import Scriptlet.Proofs.Locality.Evaluation
import Scriptlet.Session.Step

/-!
# Operations of linked evaluators

Whatever a host asks of an evaluator, another evaluator that knows the same but for paired handles
answers alike, on a heap that is linked: the results are alike, the same is written, and the
evaluators and the heaps stay so.
-/

namespace Scriptlet

open Exec Plan

/-- Evaluators are alike if they know the same functions, their variables have alike values, and
they have equally many calls active. -/
structure Evaluator.Alike (π : Pairing) (ev ev' : Evaluator) : Prop where
  context : Pairable.Alike π ev.context ev'.context
  scopes : ev.scopes.Alike π ev'.scopes
  depth : ev'.depth = ev.depth

instance : Pairable Evaluator where
  Alike := Evaluator.Alike
  mono hle h := ⟨h.context.mono hle, h.scopes.mono hle, h.depth⟩

/-- Results are alike if they are alike values, or the same answer without a value. -/
inductive EvaluatorOperation.Result.Alike (π : Pairing) : Result → Result → Prop where
  | value {v w : Value} (hv : Pairable.Alike π v w) : Alike π (.value v) (.value w)
  | answer (a : Answer) : Alike π (.answer a) (.answer a)

instance : Pairable EvaluatorOperation.Result where
  Alike := EvaluatorOperation.Result.Alike
  mono hle h := by
    cases h with
    | value hv => exact .value (hv.mono hle)
    | answer a => exact .answer a

section Outcomes

variable {π : Pairing} {h k : Heap} {α β : Type} [Pairable α] [Pairable β]

/-- Outcomes are linked if their heaps are, results and evaluators are alike, and the same was
written. -/
structure Outcome.Linked (π : Pairing) (o o' : Outcome α) : Prop where
  heap : o.heap.Linked π o'.heap
  evaluator : Alike π o.evaluator o'.evaluator
  result : Alike π o.result o'.result
  output : o'.output = o.output

/-- Two operations on linked heaps come to linked outcomes, and leave everything alone that was not
paired. -/
def Outcome.EndAlike (π : Pairing) (h k : Heap) (o o' : Outcome α) : Prop :=
  ∃ π', Grown π h k π' o.heap o'.heap ∧ o.Linked π' o'

private theorem Outcome.EndAlike.map {o o' : Outcome α} (ho : o.EndAlike π h k o') {f g : α → β}
    (hfg : ∀ {π' a b}, Alike π' a b → Alike π' (f a) (g b)) :
    EndAlike π h k { o with result := o.result.map f } { o' with result := o'.result.map g } := by
  obtain ⟨π', hgrown, hlinked⟩ := ho
  refine ⟨π', hgrown, hlinked.heap, hlinked.evaluator, ?_, hlinked.output⟩
  have hresult := hlinked.result
  simp only
  generalize o.result = r at hresult
  generalize o'.result = r' at hresult
  cases hresult with
  | ok value => exact .ok (hfg value)
  | error stop => exact .error stop

private theorem EvaluatorOperation.quiet_alike (hl : h.Linked π k) {ev ev' : Evaluator}
    (hev : Alike π ev ev') {r r' : Except Stop Result} (hr : Alike π r r') :
    Outcome.EndAlike π h k (quiet ev h r) (quiet ev' k r') :=
  ⟨π, .refl π h k, hl, hev, hr, rfl⟩

end Outcomes

section Evaluators

variable {π : Pairing} {h k : Heap} {ev ev' : Evaluator} {ctx ctx' : Context} {α : Type}
  [Pairable α]

namespace Context.Alike

private theorem define (hctx : Alike π ctx ctx') (p : Program) :
    Alike π (ctx.define p) (ctx'.define p) where
  functions := by rw [Context.define, Context.define, hctx.functions]
  builtins := hctx.builtins
  maxDepth := hctx.maxDepth

private theorem contains_eq (hctx : Alike π ctx ctx') (name : Bytes) :
    ctx'.builtins.contains name = ctx.builtins.contains name := by
  rw [Std.TreeMap.contains_eq_isSome_getElem?, Std.TreeMap.contains_eq_isSome_getElem?]
  have hb := hctx.builtins name
  generalize ctx.builtins[name]? = b at hb
  generalize ctx'.builtins[name]? = b' at hb
  cases hb <;> rfl

end Context.Alike

namespace Evaluator.Alike

/-- A program may be learnt, as far as there is one. -/
theorem learn (hev : ev.Alike π ev') (p : Option Program) :
    (ev.learn p).Alike π (ev'.learn p) := by
  cases p with
  | none => exact hev
  | some p => exact ⟨Context.Alike.define hev.context p, hev.scopes, hev.depth⟩

private theorem declare (hev : ev.Alike π ev') (name : Bytes) {v w : Value}
    (hv : Pairable.Alike π v w) : (ev.declare name v).Alike π (ev'.declare name w) :=
  ⟨hev.context, hev.scopes.bind .global name hv, hev.depth⟩

private theorem register (hev : ev.Alike π ev') (name : Bytes) {answer answer' : HostAnswer}
    (ha : answer.Alike π answer') :
    (ev.register name answer).Alike π (ev'.register name answer') := by
  have hctx : ev.context.Alike π ev'.context := hev.context
  refine ⟨⟨hctx.functions, fun n ↦ ?_, hctx.maxDepth⟩, hev.scopes, hev.depth⟩
  simp only [Evaluator.register, Context.offer, Std.TreeMap.getElem?_insert]
  split
  · exact .some (.host name ha)
  · exact hctx.builtins n

/-- A global variable has alike values, or none. -/
theorem lookup (hev : ev.Alike π ev') (name : Bytes) :
    Pairable.Alike π (ev.lookup name) (ev'.lookup name) := by
  have hv := hev.scopes.lookup? .global name
  rw [Evaluator.lookup, Evaluator.lookup]
  generalize ev.scopes.lookup? .global name = v at hv
  generalize ev'.scopes.lookup? .global name = v' at hv
  cases hv with
  | some hv => exact .ok hv
  | none => exact .error _

private theorem leftWith {π' : Pairing} {m m' : Machine} (hev : ev.Alike π ev') (hle : π ≤ π')
    (hm : m.Linked π' m') : (ev.leftWith m).Alike π' (ev'.leftWith m') where
  context := by
    rw [context_leftWith, context_leftWith]
    exact hev.context.mono hle
  scopes := hm.scopes
  depth := hm.depth

private theorem perform (hev : ev.Alike π ev') (hl : h.Linked π k)
    {action action' : Context → Exec α}
    (hrun : RunsAlike π (action ev.context) (action' ev'.context)) :
    Outcome.EndAlike π h k (ev.perform h action) (ev'.perform k action') := by
  have hm : (ev.machine h).Linked π (ev'.machine k) := ⟨hl, hev.scopes, rfl, hev.depth⟩
  have hends := hrun.ends (le_refl π) hm
  rw [perform_eq, perform_eq]
  generalize action ev.context (ev.machine h) = r at hends
  generalize action' ev'.context (ev'.machine k) = r' at hends
  cases hends with
  | @ok π' a b m m' grown linked value =>
    exact ⟨π', grown, linked.heap, hev.leftWith grown.le linked, .ok value,
      congrArg Array.toList linked.output⟩
  | @error π' m m' stop grown linked =>
    exact ⟨π', grown, linked.heap, hev.leftWith grown.le linked, .error stop,
      congrArg Array.toList linked.output⟩

end Evaluator.Alike

namespace EvaluatorOperation

/-- The first of alike values. -/
theorem headD_alike {vs ws : List Value} (hvs : Alike π vs ws) :
    Alike π (vs.headD .none) (ws.headD .none) := by
  cases hvs with
  | nil => exact .none
  | cons hv _ => exact hv

private theorem hostAnswer_alike {v w : Value} (hv : Alike π v w) (fails calls : Bytes) :
    (hostAnswer v fails calls).Alike π (hostAnswer w fails calls) := by
  simp only [hostAnswer]
  split
  · exact .failure fails
  · split
    · exact .call calls
    · exact .value hv

/-- Whatever alike evaluators are asked for, they do alike. -/
theorem perform_alike (op : EvaluatorOperation) (hl : h.Linked π k) (hev : Alike π ev ev')
    {vs ws : List Value} (hvs : Alike π vs ws) :
    Outcome.EndAlike π h k (op.perform ev h vs) (op.perform ev' k ws) := by
  replace hev : ev.Alike π ev' := hev
  have hgo := goAlike ev.context ev'.context ampleFuel
  cases op with
  | load p =>
    have hlearnt := hev.learn p
    simp only [perform, Evaluator.load_eq]
    exact (hlearnt.perform hl ((ofProgram_alike p).runsAlike _ hlearnt.context)).map
      fun _ ↦ .answer .ok
  | run p entry into =>
    have hlearnt := hev.learn p
    simp only [perform, Evaluator.run_eq]
    have hrunning := (running_alike hlearnt.context p entry).runsAlike ampleFuel hlearnt.context
    exact (hlearnt.perform hl hrunning).map .value
  | invoke name arguments site into =>
    exact (hev.perform hl (hgo.call name site hev.context hvs)).map .value
  | evaluate e into => exact (hev.perform hl (hgo.eval .global e hev.context)).map .value
  | declare name v => exact quiet_alike hl (hev.declare name (headD_alike hvs)) (.ok (.answer .ok))
  | lookup name into =>
    refine quiet_alike hl hev ?_
    have hv := hev.lookup name
    generalize ev.lookup name = r at hv
    generalize ev'.lookup name = r' at hv
    cases hv with
    | ok value => exact .ok (.value value)
    | error e => exact .error _
  | has name =>
    refine quiet_alike hl hev ?_
    rw [Evaluator.hasFunction, Evaluator.hasFunction, Evaluator.hasBuiltin, Evaluator.hasBuiltin,
      Context.Alike.functions hev.context, Context.Alike.contains_eq hev.context]
    exact .ok (.answer _)
  | display v =>
    refine quiet_alike hl hev ?_
    rw [hl.displayText_eq (headD_alike hvs)]
    exact .ok (.answer _)
  | register name returns fails calls =>
    exact quiet_alike hl (hev.register name (hostAnswer_alike (headD_alike hvs) fails calls))
      (.ok (.answer .ok))

end EvaluatorOperation
end Evaluators
end Scriptlet
