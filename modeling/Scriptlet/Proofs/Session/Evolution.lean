import Mathlib.Order.CompleteBooleanAlgebra
import Mathlib.Order.CompletePartialOrder
import Scriptlet.Proofs.Evaluation.Congruence
import Scriptlet.Proofs.Session.Invariant

/-!
# The heap of a session

Whatever a host asks for, and however it ends, the heap of its session evolves by operations on
single containers. So every dictionary that a session can reach is well formed: no program and
no error leaves one behind whose index, counter and slots disagree.
-/

namespace Scriptlet

open Exec

section Evaluating

/-- What is evaluated changes the heap by edits only, also if it fails. -/
theorem Exec.stable_evolves : Stable fun m m' ↦ m.heap.Evolves m'.heap where
  refl m := Heap.Evolves.refl m.heap
  trans h₁ h₂ := h₁.trans h₂
  edit _ _ he := he.evolves
  write _ m := Heap.Evolves.refl m.heap
  declare _ _ _ m := Heap.Evolves.refl m.heap
  inScope _ _ _ h := h
  inFrame _ _ h := h

/-- Whatever an evaluator is asked for, and however it ends, what single runs keep holds between the
machine that it starts on and the one that it keeps. -/
theorem EvaluatorOperation.stable_perform {R : Machine → Machine → Prop} (hR : Stable R)
    (op : EvaluatorOperation) (ev : Evaluator) (h : Heap) (vs : List Value) :
    ∃ m, R (ev.machine h) m ∧ (op.perform ev h vs).heap = m.heap ∧
      (op.perform ev h vs).evaluator.scopes = m.scopes := by
  cases op with
  | load p =>
    simp only [perform, Evaluator.load_eq, Evaluator.carryOut, Evaluator.perform_eq]
    rw [Evaluator.learn_eq]
    exact ⟨_, (hR.congruence _).ofProgram ampleFuel p (ev.machine h), rfl, rfl⟩
  | run p entry into =>
    simp only [perform, Evaluator.run_eq, Evaluator.carryOut, Evaluator.perform_eq]
    rw [Evaluator.learn_eq]
    exact ⟨_, (hR.congruence _).running ampleFuel p entry (ev.machine h), rfl, rfl⟩
  | invoke name arguments site into =>
    simp only [perform, Evaluator.invoke, Evaluator.perform_eq]
    exact ⟨_, (hR.keeps ev.context ampleFuel).call name vs site (ev.machine h), rfl, rfl⟩
  | evaluate e into =>
    simp only [perform, Evaluator.evaluate, Evaluator.perform_eq]
    exact ⟨_, (hR.keeps ev.context ampleFuel).expr .global e (ev.machine h), rfl, rfl⟩
  | declare name v => exact ⟨_, hR.declare .global name _ (ev.machine h), rfl, rfl⟩
  | lookup | has | display | register => exact ⟨_, hR.refl (ev.machine h), rfl, rfl⟩

/-- So the heap evolves. -/
theorem EvaluatorOperation.evolves_perform (op : EvaluatorOperation) (ev : Evaluator) (h : Heap)
    (vs : List Value) : h.Evolves (op.perform ev h vs).heap := by
  obtain ⟨m, hm, heq, -⟩ := op.stable_perform stable_evolves ev h vs
  rw [heq]
  exact hm

end Evaluating

namespace Session

/-- An invariant that speaks of the heap and the evaluators only, whatever is known. -/
def Invariant.plain (P : Heap → Std.TreeMap Bytes Evaluator → Prop)
    (operate : ∀ {h evs} op, P h evs → P (h.operate op).2 evs)
    (join : ∀ {h evs} name maxDepth, P h evs → P h (evs.insert name (Evaluator.new maxDepth)))
    (perform : ∀ {h evs} {name : Bytes} {ev : Evaluator} (op : EvaluatorOperation) vs, P h evs →
      evs[name]? = some ev →
      let o := op.perform ev h vs
      P o.heap (evs.insert name o.evaluator)) : Invariant Unit where
  Holds _ s := P s.heap s.evaluators
  Knows _ _ := True
  mono _ _ := trivial
  scalar _ _ _ := trivial
  kept _ _ := trivial
  held _ _ _ := trivial
  read _ _ _ _ := trivial
  beside hs heap _ evaluators := by
    rw [heap, evaluators]
    exact hs
  keep _ hs _ := hs
  drop _ hs := hs
  operate op hs _ := ⟨(), le_refl _, operate op hs, fun _ _ ↦ trivial⟩
  join name maxDepth hs := join name maxDepth hs
  perform op hs hev _ := ⟨(), le_refl _, perform op _ hs hev, fun _ _ ↦ trivial⟩

/-- The heap evolves from what it was. -/
def evolution (h : Heap) : Invariant Unit :=
  .plain (fun k _ ↦ h.Evolves k) (fun op hk ↦ hk.trans (.operate _ op)) (fun _ _ hk ↦ hk)
    fun op vs hk _ ↦ hk.trans (op.evolves_perform _ _ vs)

/-- Every list of operations lets the heap evolve. -/
theorem evolves_steps (s : Session) (ops : List Operation) :
    s.heap.Evolves (s.steps ops).2.heap := by
  have hs : (evolution s.heap).Holds () s := Heap.Evolves.refl _
  obtain ⟨_, -, h⟩ := Invariant.steps hs ops
  exact h

end Session

/-- Building values makes containers only. -/
theorem Literal.evolves_buildAll (ls : List Literal) {registers : Std.TreeMap Bytes Value}
    {h k : Heap} {vs : List Value} (hb : buildAll registers ls h = .ok (vs, k)) :
    h.Evolves k := by
  let s : Session := { heap := h, registers }
  have hs : (Session.evolution h).Holds () s := Heap.Evolves.refl h
  obtain ⟨_, -, hk, -⟩ := Session.Invariant.Becomes.buildAll ls hs hb
  exact hk

namespace Session

/-- Every evaluator of a session has a property. -/
def Every (P : Evaluator → Prop) (s : Session) : Prop :=
  ∀ (name : Bytes) (ev : Evaluator), s.evaluators[name]? = some ev → P ev

section Evaluators

variable {P : Evaluator → Prop}

/-- What new evaluators have, and what all their operations keep, every evaluator of a session
has. -/
theorem every_steps_start (hnew : ∀ maxDepth, P (Evaluator.new maxDepth))
    (hperform : ∀ op ev h vs, P ev → P (EvaluatorOperation.perform op ev h vs).evaluator)
    (evaluator : Bytes) (maxDepth : Nat) (ops : List Operation) :
    ((start evaluator maxDepth).steps ops).2.Every P := by
  have hinsert {evs : Std.TreeMap Bytes Evaluator} (name : Bytes) {ev : Evaluator} (hev : P ev)
      (hs : ∀ (name : Bytes) (ev : Evaluator), evs[name]? = some ev → P ev) (name' : Bytes)
      (ev' : Evaluator) (h : (evs.insert name ev)[name']? = some ev') : P ev' := by
    rw [Std.TreeMap.getElem?_insert] at h
    split at h
    · cases h
      exact hev
    · exact hs _ _ h
  let I : Invariant Unit := .plain
    (fun _ evs ↦ ∀ (name : Bytes) (ev : Evaluator), evs[name]? = some ev → P ev)
    (fun _ hs ↦ hs) (fun name maxDepth hs ↦ hinsert name (hnew maxDepth) hs)
    fun op vs hs hev ↦ hinsert _ (hperform op _ _ vs (hs _ _ hev)) hs
  have hempty : I.Holds () {} := fun _ _ h ↦ by cases h
  obtain ⟨_, -, h⟩ := Invariant.steps_start hempty evaluator maxDepth ops
  exact h

end Evaluators

/-- Whatever a host does with values, scopes and evaluators, and however its programs end, every
dictionary of its session keeps its form: the index sends the keys of live slots, and only
these, to the positions of the slots, no key is live twice, the counter counts the live slots,
dead slots hold nothing and never outnumber the live ones. -/
theorem dict_steps_start (evaluator : Bytes) (maxDepth : Nat) (ops : List Operation)
    (r : DictRef) :
    let d := ((start evaluator maxDepth).steps ops).2.heap.dict r
    (∀ (k : Key) (i : Nat), d.index[k]? = some i ↔ ∃ v, d.slots[i]? = some ⟨k, v, true⟩) ∧
      Slot.Distinct d.slots.toList ∧
      d.size = (d.slots.toList.filter (·.live)).length ∧
      (∀ s ∈ d.slots, s.live = false → s.value = .none) ∧
      d.tombstones ≤ d.size ∧
      d.slots.size ≤ 2 * d.size ∧
      (d.isEmpty = true → d.slots = #[]) := by
  intro d
  have hw : d.WF := ((start evaluator maxDepth).evolves_steps ops).wf Heap.wf_empty r
  refine ⟨hw.index_iff, hw.distinct, ?_, hw.dead_none, hw.tombstones_le, hw.slots_size_le,
    hw.slots_eq_empty⟩
  rw [hw.size_eq, Dictionary.entries, List.length_map]

end Session
end Scriptlet
