import Mathlib.Data.Set.Basic
import Scriptlet.Proofs.Locality.Building
import Scriptlet.Proofs.Locality.Operation
import Scriptlet.Proofs.Session.Evolution

/-!
# Sessions that are alike in part

A part of a session consists of some evaluators and registers. A request that keeps to a part is
answered in the same way by two sessions that are alike in that part, and leaves them so; and no
other part can tell that there was a request, if no container is in both.
-/

namespace Scriptlet

/-- An operation on an evaluator reads a register, or keeps its value there. -/
def EvaluatorOperation.Uses (op : EvaluatorOperation) (register : Bytes) : Prop :=
  (∃ l ∈ op.literals, l.Reads register) ∨ op.into = some register

/-- Some of the evaluators of a session, and of its registers. -/
structure Part where
  evaluators : Set Bytes
  registers : Set Bytes

/-- A request keeps to a part: its evaluator and all registers that it uses belong there. -/
structure Part.Covers (p : Part) (name : Bytes) (op : EvaluatorOperation) : Prop where
  evaluator : name ∈ p.evaluators
  registers : ∀ register, op.Uses register → register ∈ p.registers

namespace Session

section Requests

variable {s : Session} {name : Bytes} {op : EvaluatorOperation} {ev : Evaluator}

/-- A request does not touch any other evaluator. -/
theorem evaluators_stepEvaluator_of_ne {other : Bytes} (hne : other ≠ name) :
    (s.stepEvaluator name op).2.evaluators[other]? = s.evaluators[other]? := by
  cases hev : s.evaluators[name]? with
  | none => rw [stepEvaluator_of_none hev]
  | some ev =>
    cases hb : Literal.buildAll s.registers op.literals s.heap with
    | error e => rw [stepEvaluator_of_error hev hb]
    | ok p =>
      rw [stepEvaluator_of_ok hev hb, Std.TreeMap.getElem?_insert,
        if_neg fun heq ↦ hne (Std.LawfulEqOrd.eq_of_compare heq).symm]

/-- Nor does it touch a register that it does not use. -/
theorem registers_stepEvaluator_of_not_uses {register : Bytes} (hn : ¬ op.Uses register) :
    (s.stepEvaluator name op).2.registers[register]? = s.registers[register]? := by
  cases hev : s.evaluators[name]? with
  | none => rw [stepEvaluator_of_none hev]
  | some ev =>
    cases hb : Literal.buildAll s.registers op.literals s.heap with
    | error e => rw [stepEvaluator_of_error hev hb]
    | ok p =>
      rw [stepEvaluator_of_ok hev hb]
      simp only [keptAfter]
      split
      · next r _ hinto =>
        have hne : ¬ compare r register = .eq := fun heq ↦
          hn (Or.inr (hinto.trans (congrArg some (Std.LawfulEqOrd.eq_of_compare heq))))
        rw [Std.TreeMap.getElem?_insert, if_neg hne]
      · rfl

end Requests

/-- Sessions are alike in a part if their heaps are linked, and evaluators and registers of the part
hold alike values. -/
structure Alike (π : Pairing) (p : Part) (s t : Session) : Prop where
  heap : s.heap.Linked π t.heap
  evaluators : ∀ name ∈ p.evaluators, Pairable.Alike π s.evaluators[name]? t.evaluators[name]?
  registers : ∀ name ∈ p.registers, Pairable.Alike π s.registers[name]? t.registers[name]?

namespace Alike

variable {π : Pairing} {p q : Part} {s s' t t' : Session} {name : Bytes}
  {op : EvaluatorOperation}

private theorem replyTo_eq {o o' : Outcome EvaluatorOperation.Result} (ho : o.Linked π o') :
    replyTo o' = replyTo o := by
  have hdepth : o'.evaluator.depth = o.evaluator.depth := Evaluator.Alike.depth ho.evaluator
  have hresult := ho.result
  have hshown : o'.result.map (shown o'.heap) = o.result.map (shown o.heap) := by
    generalize o.result = r at hresult ⊢
    generalize o'.result = r' at hresult ⊢
    cases hresult with
    | error stop => simp only [Except.map]
    | ok value =>
      cases value with
      | answer a => simp only [Except.map, shown]
      | value hv => simp only [Except.map, shown, ho.heap.debugText_eq hv]
  rw [replyTo, replyTo, hshown, ho.output, hdepth]

private theorem keptAfter_alike {o o' : Outcome EvaluatorOperation.Result} (ho : o.Linked π o')
    (hr : Pairable.Alike π s.registers[name]? t.registers[name]?) :
    Pairable.Alike π (s.keptAfter op o)[name]? (t.keptAfter op o')[name]? := by
  have hresult := ho.result
  simp only [keptAfter]
  generalize o.result = r at hresult ⊢
  generalize o'.result = r' at hresult ⊢
  cases hresult with
  | error stop => exact hr
  | ok value =>
    cases value with
    | answer a => exact hr
    | value hv =>
      cases op.into with
      | none => exact hr
      | some register =>
        rw [Std.TreeMap.getElem?_insert, Std.TreeMap.getElem?_insert]
        split
        · exact .some hv
        · exact hr

/-- A request that keeps to the part gets the same reply from both, and they stay alike. -/
theorem stepEvaluator (h : s.Alike π p t) (hp : p.Covers name op) :
    (t.stepEvaluator name op).1 = (s.stepEvaluator name op).1 ∧
      ∃ π', Grown π s.heap t.heap π' (s.stepEvaluator name op).2.heap
          (t.stepEvaluator name op).2.heap ∧
        Alike π' p (s.stepEvaluator name op).2 (t.stepEvaluator name op).2 := by
  have hev := h.evaluators name hp.evaluator
  cases hs : s.evaluators[name]? with
  | none =>
    rw [hs] at hev
    generalize ht : t.evaluators[name]? = e at hev
    cases hev with
    | none =>
      rw [stepEvaluator_of_none hs, stepEvaluator_of_none ht]
      exact ⟨rfl, π, .refl _ _ _, h⟩
  | some ev =>
    rw [hs] at hev
    generalize ht : t.evaluators[name]? = e at hev
    cases hev with
    | @some _ ev' hev =>
      have hbuilt := Literal.buildAll_alike op.literals h.heap fun l hl register hreads ↦
        h.registers register (hp.registers register (Or.inl ⟨l, hl, hreads⟩))
      generalize hx : Literal.buildAll s.registers op.literals s.heap = x at hbuilt
      generalize hy : Literal.buildAll t.registers op.literals t.heap = y at hbuilt
      cases hbuilt with
      | error e =>
        rw [stepEvaluator_of_error hs hx, stepEvaluator_of_error ht hy,
          Evaluator.Alike.depth hev]
        exact ⟨rfl, π, .refl _ _ _, h⟩
      | @ok π₁ vs ws h₁ k₁ grown linked value =>
        obtain ⟨π', hgrown, ho⟩ := op.perform_alike linked (hev.mono grown.le) value
        have hle := grown.le.trans hgrown.le
        rw [stepEvaluator_of_ok hs hx, stepEvaluator_of_ok ht hy]
        generalize op.perform ev h₁ vs = o at hgrown ho
        generalize op.perform ev' k₁ ws = o' at hgrown ho
        refine ⟨replyTo_eq ho, π', grown.trans hgrown, ho.heap, fun n hn ↦ ?_, fun r hr ↦ ?_⟩
        · simp only [Std.TreeMap.getElem?_insert]
          split
          · exact .some ho.evaluator
          · exact (h.evaluators n hn).mono hle
        · exact keptAfter_alike ho ((h.registers r hr).mono hle)

/-- Sessions stay alike in a part when neither its evaluators nor its registers nor any container
that is paired changes. -/
theorem frame (h : s.Alike π q t)
    (hs : ∀ n ∈ q.evaluators, s'.evaluators[n]? = s.evaluators[n]?)
    (ht : ∀ n ∈ q.evaluators, t'.evaluators[n]? = t.evaluators[n]?)
    (hs' : ∀ r ∈ q.registers, s'.registers[r]? = s.registers[r]?)
    (ht' : ∀ r ∈ q.registers, t'.registers[r]? = t.registers[r]?)
    (hheap : s'.heap.Linked π t'.heap) : s'.Alike π q t' where
  heap := hheap
  evaluators n hn := by
    rw [hs n hn, ht n hn]
    exact h.evaluators n hn
  registers r hr := by
    rw [hs' r hr, ht' r hr]
    exact h.registers r hr

end Alike
end Session
end Scriptlet
