import Scriptlet.Proofs.Evaluation.Blame
import Scriptlet.Proofs.Evaluation.Outcome
import Scriptlet.Proofs.Locality.Interleaving
import Scriptlet.Proofs.Locality.Moments

/-!
# Expressions without calls

An expression in which nothing is called is evaluated in finitely many steps, and does nothing but
make new containers: variables, output, active calls and all containers that were there stay as they
are, however it ends. So evaluating it once more comes to the same: the same error, scalar or old
container, or a new container that is made of the same.
-/

namespace Scriptlet

open Exec Plan Moment

/-- No call stands anywhere in the expression. -/
def Expr.CallsNothing (e : Expr) : Prop := ∀ n, (Node.expr e).Below n → n.isCall = false

private theorem Expr.CallsNothing.child {e e' : Expr} (he : e.CallsNothing)
    (hchild : e' ∈ e.children) : e'.CallsNothing :=
  fun n hn ↦ he n (Relation.ReflTransGen.head (List.mem_map_of_mem hchild) hn)

private theorem Expr.callsNothing_of_children {e : Expr} (he : (Node.expr e).isCall = false)
    (hchildren : ∀ e' ∈ e.children, e'.CallsNothing) : e.CallsNothing := by
  intro n hn
  rcases hn.cases_head with rfl | ⟨n', hn', hn⟩
  · exact he
  · obtain ⟨e', he', rfl⟩ := List.mem_map.mp hn'
    exact hchildren e' he' n hn

/-- The kinds of errors that the evaluation of an expression without calls can end with. -/
def Expr.errorKinds : List ErrorKind :=
  [.unboundVariable, .typeMismatch, .arithmeticError, .indexOutOfRange, .keyNotFound,
    .notIndexable]

namespace Exec

variable {α β : Type}

/-- A run ends, and has made containers and nothing else. -/
inductive Builds (m : Machine) : Ending α → Prop where
  | ok {a : α} {h : Heap} (spares : m.heap.Spares (fun _ ↦ False) h) :
      Builds m (.ok a { m with heap := h })
  | error {e : ScriptError} {h : Heap} (spares : m.heap.Spares (fun _ ↦ False) h)
      (kind : e.kind ∈ Expr.errorKinds) : Builds m (.error (.error e) { m with heap := h })

/-- A computation that makes containers and does nothing else. -/
def Building (x : Exec α) : Prop := ∀ m, Builds m (x m)

private theorem Builds.after {m : Machine} {h : Heap} {r : Ending α}
    (spares : m.heap.Spares (fun _ ↦ False) h) (hr : Builds { m with heap := h } r) :
    Builds m r := by
  cases hr with
  | ok spares' => exact .ok (spares.trans spares' fun _ _ hn ↦ hn)
  | error spares' kind => exact .error (spares.trans spares' fun _ _ hn ↦ hn) kind

private theorem Builds.finished {m : Machine} {r : Ending α} (hr : Builds m r) : r.Finished := by
  cases hr with
  | ok => exact trivial
  | error => exact Stop.noConfusion

namespace Building

private theorem pure (a : α) : Building (Pure.pure a : Exec α) := fun m ↦ .ok (.refl m.heap)

private theorem raise {cause : Cause} (l : Location)
    (h : Expr.errorKinds.contains cause.kind = true) : Building (Exec.raise cause l : Exec α) :=
  fun m ↦ .error (.refl m.heap) (List.contains_iff_mem.mp h)

private theorem bind {x : Exec α} {f : α → Exec β} (hx : Building x) (hf : ∀ a, Building (f a)) :
    Building (x >>= f) := by
  intro m
  have hm := hx m
  simp only [Bind.bind, EStateM.bind]
  generalize x m = r at hm
  cases hm with
  | ok spares => exact (hf _ _).after spares
  | error spares kind => exact .error spares kind

private theorem ite {c : Prop} [Decidable c] {x y : Exec α} (hx : Building x) (hy : Building y) :
    Building (if c then x else y) := by
  split
  · exact hx
  · exact hy

private theorem mapM {f : α → Exec β} {as : List α} (hf : ∀ a ∈ as, Building (f a)) :
    Building (as.mapM f) := by
  induction as with
  | nil => exact pure []
  | cons a as ih =>
    rw [List.mapM_cons]
    refine (hf a List.mem_cons_self).bind fun b ↦ ?_
    exact (ih fun a ha ↦ hf a (List.mem_cons_of_mem _ ha)).bind fun bs ↦ pure (b :: bs)

private theorem lift (l : Location) {kinds : List ErrorKind} {x : Except Cause α}
    (hx : FailsWith kinds x) (hkinds : kinds ⊆ Expr.errorKinds) : Building (Exec.lift l x) := by
  cases x with
  | ok a => exact pure a
  | error cause => exact raise l (List.contains_iff_mem.mpr (hkinds (hx cause rfl)))

private theorem operate (l : Location) {kinds : List ErrorKind} {f : Heap → Except Cause α}
    (hf : ∀ h, FailsWith kinds (f h)) (hkinds : kinds ⊆ Expr.errorKinds) :
    Building (Exec.operate l f) := fun m ↦ lift l (hf m.heap) hkinds m

private theorem condition (l : Location) (v : Value) : Building (Exec.condition l v) := by
  cases v with
  | bool b => exact pure b
  | _ => exact raise l rfl

private theorem lookup (scope : ScopeId) (name : Bytes) (l : Location) :
    Building (Exec.lookup scope name l) := by
  intro m
  simp only [Exec.lookup]
  cases m.scopes.lookup? scope name with
  | some v => exact .ok (.refl m.heap)
  | none =>
    have hraise : Building (Exec.raise (.unboundVariable name) l : Exec Value) := raise l rfl
    exact hraise m

private theorem newArray (elements : List Value) : Building (Exec.newArray elements) := by
  intro m
  apply Builds.ok
  have hspares := m.heap.spares_newArray elements.toArray
  -- The new array is none of those that were there.
  exact hspares.mono fun c hc he ↦ Nat.lt_irrefl _ (he ▸ hc : m.heap.Has (.array _))

private theorem newDict (d : Dictionary) : Building (Exec.newDict d) := by
  intro m
  apply Builds.ok
  exact (m.heap.spares_newDict d).mono fun c hc he ↦
    Nat.lt_irrefl _ (he ▸ hc : m.heap.Has (.dict _))

end Building
end Exec

variable {ctx : Context}

/-- With fuel for all of its parts an expression without calls makes containers and does nothing
else. -/
theorem Expr.CallsNothing.building {e : Expr} (he : e.CallsNothing) {fuel : Nat}
    (hfuel : sizeOf e ≤ fuel) (scope : ScopeId) : Building (evalExpr ctx fuel scope e) := by
  induction fuel generalizing e with
  | zero => cases e <;> simp at hfuel
  | succ fuel ih =>
    have hpart {e' : Expr} (hchild : e' ∈ e.children) : Building (evalExpr ctx fuel scope e') :=
      ih (he.child hchild) (Nat.le_of_lt_succ ((sizeOf_lt_of_mem_children hchild).trans_le hfuel))
    cases e with
    | absent | int | str | bool | none =>
      rw [evalExpr]
      exact .pure _
    | ident l name =>
      rw [evalExpr]
      exact .lookup scope name l
    | unary l op operand =>
      rw [evalExpr]
      refine (hpart (by simp [children])).bind fun v ↦ ?_
      exact .lift l (FailsWith.unary op v) (by decide)
    | binary l op left right =>
      rw [evalExpr]
      have hright : Building (evalExpr ctx fuel scope right) :=
        hpart (by simp [children])
      have hcondition : Building (do
          return Value.bool (← condition l (← evalExpr ctx fuel scope right)) : Exec Value) :=
        hright.bind fun b ↦ (Building.condition l b).bind fun _ ↦ .pure _
      refine (hpart (by simp [children])).bind fun a ↦ .ite ?_ (.ite ?_ ?_)
      · exact (Building.condition l a).bind fun _ ↦ .ite hcondition (.pure _)
      · exact (Building.condition l a).bind fun _ ↦ .ite (.pure _) hcondition
      · exact hright.bind fun b ↦
          .operate l (fun h ↦ FailsWith.binary h op a b) (by decide)
    | index l object key =>
      rw [evalExpr]
      refine (hpart (by simp [children])).bind fun container ↦ ?_
      refine (hpart (by simp [children])).bind fun k ↦ ?_
      exact .operate l (fun h ↦ FailsWith.read h container k) (by decide)
    | array l elements =>
      rw [evalExpr]
      exact (Building.mapM fun e' hmem ↦ hpart hmem).bind fun vs ↦ .newArray vs
    | dict l entries =>
      rw [evalExpr]
      refine (Building.mapM fun entry hmem ↦ ?_).bind fun pairs ↦ .newDict _
      obtain ⟨key, value⟩ := entry
      have hentry {e' : Expr} (he' : e' = key ∨ e' = value) :
          Building (evalExpr ctx fuel scope e') :=
        hpart (List.mem_flatMap.mpr ⟨(key, value), hmem, by simpa using he'⟩)
      refine (hentry (Or.inl rfl)).bind fun k ↦ ?_
      refine (Building.lift _ (FailsWith.dictKey k) (by decide)).bind fun k ↦ ?_
      exact (hentry (Or.inr rfl)).bind fun v ↦ .pure _
    | call l receiver callee arguments => cases he _ (Node.Below.refl _)
    | bare l =>
      rw [evalExpr]
      exact .raise l rfl

section Again

variable {π : Pairing} {m : Machine}

private theorem alike_self_of_rel {x y : Option Value} (h : Alike π x y) :
    Alike (.within π.Left) x x := by
  cases h with
  | none => exact .none
  | some hv => exact .some (Value.Alike.within hv).alike

private theorem Scopes.Alike.self {s t : Scopes} (h : s.Alike π t) :
    s.Alike (.within π.Left) s := by
  have hall {as bs : List Scope} (h : List.Forall₂ (Scope.Alike π) as bs) :
      List.Forall₂ (Scope.Alike (.within π.Left)) as as := by
    induction h with
    | nil => exact .nil
    | cons hs _ ih => exact .cons ⟨fun name ↦ alike_self_of_rel (hs.bindings name), rfl⟩ ih
  exact hall h

private theorem Context.Alike.self {ctx' : Context} (h : ctx.Alike π ctx') :
    ctx.Alike (.within π.Left) ctx where
  functions := rfl
  builtins name := by
    have hb := h.builtins name
    generalize ctx.builtins[name]? = b at hb
    generalize ctx'.builtins[name]? = b' at hb
    cases hb with
    | none => exact .none
    | some hb =>
      cases hb with
      | usual hb => exact .some (.usual hb)
      | host name ha =>
        cases ha with
        | value hv => exact .some (.host name (.value (Value.Alike.within hv).alike))
        | failure detail => exact .some (.host name (.failure detail))
        | call callee => exact .some (.host name (.call callee))
  maxDepth := rfl

private theorem Machine.Intact.linked_after (hm : m.Intact π ctx) {h : Heap}
    (spares : m.heap.Spares (fun _ ↦ False) h) :
    m.Linked (.within π.Left) { m with heap := h } where
  heap := by
    have hself : m.heap.Linked (.within π.Left) m.heap :=
      Heap.linked_within hm.wf (fun c ⟨_, hp⟩ ↦ hm.linked.heap.has_left hp)
        fun c ⟨_, hp⟩ v hv ↦ hm.linked.heap.held_within hp hv
    exact hself.of_spares (.refl m.heap) spares fun _ ↦ ⟨not_false, not_false⟩
  scopes := hm.linked.scopes.self
  output := rfl
  depth := rfl

private theorem Machine.Intact.linked_ending (hm : m.Intact π ctx) {α : Type} {r : Ending α}
    (hr : Builds m r) : m.Linked (.within π.Left) (Ending.machine r) := by
  cases hr with
  | ok spares | error spares kind => exact hm.linked_after spares

/-- How two runs end, one after the other, of which the second comes to the same as the first: the
same scalar or old container, the same error, or a container that is new each time and is shown by
the same texts. -/
inductive Exec.Repeats (m : Machine) : Ending Value → Ending Value → Prop where
  | scalar {v : Value} (m₁ m₂ : Machine) (scalar : v.container? = none) :
      Repeats m (.ok v m₁) (.ok v m₂)
  | old {c : Container} (m₁ m₂ : Machine) (has : m.heap.Has c) :
      Repeats m (.ok c.handle m₁) (.ok c.handle m₂)
  | made {c d : Container} {m₁ m₂ : Machine} (isNew : ¬ m.heap.Has c) (isNewAgain : ¬ m₁.heap.Has d)
      (has : m₁.heap.Has c) (hasAgain : m₂.heap.Has d)
      (debugText : m₂.heap.debugText d.handle = m₁.heap.debugText c.handle)
      (displayText : m₂.heap.displayText d.handle = m₁.heap.displayText c.handle) :
      Repeats m (.ok c.handle m₁) (.ok d.handle m₂)
  | error (e : ScriptError) (m₁ m₂ : Machine) :
      Repeats m (.error (.error e) m₁) (.error (.error e) m₂)

private theorem Exec.Repeats.of_endAlike {r r' : Ending Value} (finished : r.Finished)
    (has : ∀ {c}, π.Left c → m.heap.Has c)
    (hends : EndAlike (.within π.Left) m.heap (Ending.machine r).heap r r') : Repeats m r r' := by
  have hhandle {π' : Pairing} {c d : Container} {m₁ m₂ : Machine}
      (grown : Grown (.within π.Left) m.heap m₁.heap π' m₁.heap m₂.heap)
      (linked : m₁.Linked π' m₂) (paired : π' c d) (value : Alike π' c.handle d.handle) :
      Repeats m (.ok c.handle m₁) (.ok d.handle m₂) := by
    rcases grown.fresh paired with ⟨rfl, hc⟩ | ⟨hc, hd⟩
    · exact .old m₁ m₂ (has hc)
    · exact .made hc hd (linked.heap.has_left paired) (linked.heap.has_right paired)
        (linked.heap.debugText_eq value) (linked.heap.displayText_eq value)
  cases hends with
  | ok grown linked value =>
    cases value with
    | none | bool | int | str => exact .scalar _ _ rfl
    | @array r s paired =>
      exact hhandle (c := .array r) (d := .array s) grown linked paired (.array paired)
    | @dict r s paired =>
      exact hhandle (c := .dict r) (d := .dict s) grown linked paired (.dict paired)
  | error stop grown linked =>
    cases stop with
    | error e => exact .error e _ _
    | outOfFuel => exact absurd rfl finished

end Again

/-- At every moment that a session passes through, and so whenever an evaluator is asked for
something, an expression in which nothing is called is evaluated to an end, in any scope. Except for
new containers everything is left as it is, and an error is none of those that calls and loops end
with. Evaluating the expression again does so, too, and comes to the same. -/
theorem Expr.evaluation_pure {q : Moment} (reached : q.Reached ctx) {e : Expr}
    (callsNothing : e.CallsNothing) (scope : ScopeId) :
    ∃ r r' : Ending Value,
      (∀ fuel, sizeOf e ≤ fuel → evalExpr ctx fuel scope e q.machine = r ∧
        evalExpr ctx fuel scope e (Ending.machine r) = r') ∧
      Builds q.machine r ∧ Builds (Ending.machine r) r' ∧ Repeats q.machine r r' := by
  obtain ⟨π, hm⟩ := reached.exists_intact
  have hbuilds (m : Machine) : Builds m (evalExpr ctx (sizeOf e) scope e m) :=
    callsNothing.building (Nat.le_refl _) scope m
  have hmore {fuel : Nat} (hfuel : sizeOf e ≤ fuel) (m : Machine) :
      evalExpr ctx fuel scope e m = evalExpr ctx (sizeOf e) scope e m :=
    (eval scope e).run_of_le hfuel (hbuilds m).finished
  refine ⟨_, _, fun fuel hfuel ↦ ⟨hmore hfuel _, hmore hfuel _⟩, hbuilds _, hbuilds _, ?_⟩
  have halike := (goAlike ctx ctx (sizeOf e)).eval scope e hm.context.self
  have hends := halike.ends (le_refl _) (hm.linked_ending (hbuilds q.machine))
  exact .of_endAlike (hbuilds _).finished (fun ⟨_, hp⟩ ↦ hm.linked.heap.has_left hp) hends

/-- The literal of an array makes another array each time. -/
theorem Expr.evaluation_pure_literal :
    let e : Expr := .array {} [.int {} 1]
    let ev := Evaluator.new 8
    let q := EvaluatorOperation.start (.evaluate e none) ev {} []
    q.Reached ev.context ∧ e.CallsNothing ∧
      ∃ r r' : Ending Value,
        (∀ fuel, sizeOf e ≤ fuel → evalExpr ev.context fuel .global e q.machine = r ∧
          evalExpr ev.context fuel .global e (Ending.machine r) = r') ∧
        Builds q.machine r ∧ Builds (Ending.machine r) r' ∧ Repeats q.machine r r' := by
  intro e ev q
  have reached : q.Reached ev.context :=
    @Moment.Reached.during _ "e" ev (.evaluate e none) [] {} q (.after "e" 8 [])
      Std.TreeMap.getElem?_insert_self rfl Relation.ReflTransGen.refl
  have callsNothing : e.CallsNothing := by
    refine callsNothing_of_children rfl fun e' he' ↦ ?_
    cases List.mem_singleton.mp he'
    exact callsNothing_of_children rfl fun e' he' ↦ by cases he'
  exact ⟨reached, callsNothing, evaluation_pure reached callsNothing .global⟩

end Scriptlet
