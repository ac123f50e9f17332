import Scriptlet.Proofs.Evaluation.Moment
import Scriptlet.Proofs.Evaluation.Scripted
import Scriptlet.Proofs.Heap.Edit
import Scriptlet.Proofs.Syntax.Node

/-!
# The pieces of a run

Every piece of a plan is of one of a few forms, and belongs to a node of the program that is
run: it reads a variable for an identifier, computes for an operator, writes for the target of
an assignment, or is the body of a built-in function that was called from somewhere. So
whatever a run passes through can be traced back to a node of the program or of the functions
that it can call.
-/

namespace Scriptlet

namespace Walk

private theorem location_of_start {h : Heap} {v : Value} {l : Location} {w : Walk}
    (hw : start h v l = .ok w) : w.location = l := by
  simp only [start] at hw
  cases hc : Cursor.start? h v with
  | none =>
    rw [hc] at hw
    cases hw
  | some cursor =>
    rw [hc] at hw
    cases hw
    rfl

/-- A walk has the same place after each visit. -/
theorem location_next (w : Walk) (h : Heap) : (w.next h).2.location = w.location := by
  unfold next
  split
  · rfl
  · split <;> rfl

/-- A visit gives the next entry of a walk. -/
theorem next_of_visit? {w w' : Walk} {h : Heap} {key value : Value}
    (hv : w.visit? h = .ok (some (key, value, w'))) : w.next h = (.entry key value, w') := by
  simp only [visit?] at hv
  rcases hn : w.next h with ⟨visit, w''⟩
  rw [hn] at hv
  cases visit <;> cases hv
  rfl

end Walk

open Exec Plan

/-- Something that depends on the heap succeeds with what the heap gives, and leaves the machine
alone. -/
theorem Exec.consult_eq_ok_iff {α : Type} (f : Heap → Except ScriptError α) (m m' : Machine)
    (a : α) : consult f m = .ok a m' ↔ f m.heap = .ok a ∧ m' = m := by
  simp only [consult]
  cases f m.heap <;> simp [eq_comm]

/-- What a run keeps to: some nodes, and the places that built-in functions are called from. -/
structure Territory where
  nodes : Node → Prop
  sites : Location → Prop

/-- The nodes come with all that lies below them, calls are made from the places meant for them,
and the bodies of all functions that can be called belong to the nodes. -/
structure Territory.Closed (T : Territory) (ctx : Context) : Prop where
  children : ∀ {a b : Node}, T.nodes a → b ∈ a.children → T.nodes b
  call : ∀ {l receiver callee arguments},
    T.nodes (.expr (.call l receiver callee arguments)) → T.sites l
  /-- A host function that prints in place of the built-in one may go on to call another one. -/
  print : ∀ {l arguments b}, T.nodes (.stmt (.print l arguments)) →
    ctx.builtins[Builtin.print.name]? = some b → b = .print ∨ T.sites l
  body : ∀ {name : Bytes} {f : Function} {s : Stmt}, ctx.functions[name]? = some f →
    s ∈ f.body → T.nodes (.stmt s)

/-- Every node and every place. -/
def Territory.all : Territory where
  nodes _ := True
  sites _ := True

/-- A run can keep to that whatever it is. -/
theorem Territory.closed_all (ctx : Context) : Territory.all.Closed ctx where
  children _ _ := trivial
  call _ := trivial
  print _ _ := Or.inr trivial
  body _ _ := trivial

/-- The forms that the pieces of a plan have, each with what its node is known to be, or with
what holds of the machine that it is carried out on. -/
inductive Piece (ctx : Context) (T : Territory) : {α : Type} → Exec α → Machine → Prop where
  | pure {α : Type} (a : α) (m : Machine) : Piece ctx T (pure a : Exec α) m
  -- Expressions
  | lookup {l : Location} {name : Bytes} (here : T.nodes (.expr (.ident l name)))
      (scope : ScopeId) (m : Machine) : Piece ctx T (lookup scope name l) m
  | unary {l : Location} {op : Bytes} {e : Expr} (here : T.nodes (.expr (.unary l op e)))
      (v : Value) (m : Machine) : Piece ctx T (lift l (v.unary op)) m
  | binary {l : Location} {op : Bytes} {left right : Expr}
      (here : T.nodes (.expr (.binary l op left right))) (a b : Value) (m : Machine) :
      Piece ctx T (operate l (·.binary op a b)) m
  | read {l : Location} {object key : Expr} (here : T.nodes (.expr (.index l object key)))
      (container k : Value) (m : Machine) : Piece ctx T (operate l (·.read container k)) m
  | newArray (elements : List Value) (m : Machine) : Piece ctx T (newArray elements) m
  | newDict (pairs : List (Key × Value)) (m : Machine) :
      Piece ctx T (newDict (pairs.foldl (fun d (k, v) ↦ d.set k v) {})) m
  -- Anything that demands a type
  | condition {n : Node} (here : T.nodes n) (present : n.isPresent = true) (v : Value)
      (m : Machine) : Piece ctx T (condition n.location v) m
  | key {n : Node} (here : T.nodes n) (present : n.isPresent = true) (v : Value) (m : Machine) :
      Piece ctx T (lift n.location (dictKey v)) m
  | misfit {α : Type} {n : Node} {cause : Cause} (here : T.nodes n)
      (present : n.isPresent = true) (kind : cause.kind = .typeMismatch) (m : Machine) :
      Piece ctx T (raise cause n.location : Exec α) m
  -- Statements
  | declare (scope : ScopeId) (name : Bytes) (v : Value) (m : Machine) :
      Piece ctx T (declare scope name v) m
  | bindAll (scope : ScopeId) (bindings : List (Bytes × Value)) (m : Machine) :
      Piece ctx T (bindAll scope bindings) m
  | combine {l : Location} {target value : Expr} {text : Bytes} {op : AssignOp}
      (here : T.nodes (.stmt (.assign l target text value)))
      (known : AssignOp.ofText? text = some op) (current new : Value) (m : Machine) :
      Piece ctx T (operate l fun h ↦ op.combine h current new) m
  | assign (scope : ScopeId) (name : Bytes) (v : Value) (m : Machine) :
      Piece ctx T (assign scope name v) m
  | write {l : Location} {object key : Expr} (here : T.nodes (.expr (.index l object key)))
      (container k v : Value) (m : Machine) : Piece ctx T (operate l (·.write container k v)) m
  | store {container k v : Value} {heap : Heap} (m : Machine)
      (written : m.heap.write container k v = .ok heap) :
      Piece ctx T (modifyHeap fun _ ↦ heap) m
  | notIndexAssignable {α : Type} {l : Location} {object key : Expr}
      (here : T.nodes (.expr (.index l object key))) (type : TypeName) (m : Machine) :
      Piece ctx T (raise (.notIndexAssignable type) l : Exec α) m
  | startWalk {l : Location} {vars : LoopVars} {iterable : Expr} {body : List Stmt}
      (here : T.nodes (.stmt (.forEach l vars iterable body))) (v : Value) (m : Machine) :
      Piece ctx T (consult fun h ↦ Walk.start h v l) m
  | visit {w : Walk} {vars : LoopVars} {iterable : Expr} {body : List Stmt}
      (here : T.nodes (.stmt (.forEach w.location vars iterable body))) (m : Machine) :
      Piece ctx T (consult w.visit?) m
  | noPrint {α : Type} (none : ctx.builtins[Builtin.print.name]? = none) (l : Location)
      (m : Machine) : Piece ctx T (raise .printUnavailable l : Exec α) m
  -- Built-in functions
  | native {b : Builtin} {site : Token} {arguments : List Value}
      {respond : Heap → Except Cause Builtin.Response} (response : b.Native arguments respond)
      (here : b = .print ∨ T.sites site.location) (m : Machine) :
      Piece ctx T (Builtin.reply site respond) m
  | logCall (name : Bytes) (arguments : List Value) (site : Token) (m : Machine) :
      Piece ctx T (Builtin.logCall name arguments site) m
  | failure {site : Token} (here : T.sites site.location) (detail : Bytes) (m : Machine) :
      Piece ctx T (raise (.stated .typeMismatch detail) site.location : Exec Value) m

section Heaps

variable {ctx : Context} {T : Territory} {α : Type} {x : Exec α} {m : Machine}

private theorem heap_operate (l : Location) (f : Heap → Except Cause α) (m : Machine) :
    (Ending.machine (operate l f m)).heap = m.heap := by
  simp only [operate, Bind.bind, EStateM.bind, inspect]
  cases f m.heap <;> rfl

private theorem heap_consult (f : Heap → Except ScriptError α) (m : Machine) :
    (Ending.machine (consult f m)).heap = m.heap := by
  simp only [consult]
  cases f m.heap <;> rfl

private theorem heap_lift (l : Location) (r : Except Cause α) (m : Machine) :
    (Ending.machine (lift l r m)).heap = m.heap := by
  cases r <;> rfl

/-- Carrying out a piece changes nothing in the heap, or makes one edit. -/
theorem Piece.heap_eq_or_edit (hx : Piece ctx T x m) :
    (Ending.machine (x m)).heap = m.heap ∨ m.heap.Edit (Ending.machine (x m)).heap := by
  cases hx with
  | pure | declare | bindAll | assign | misfit | notIndexAssignable | noPrint | failure
  | logCall => exact Or.inl rfl
  | lookup here scope =>
    left
    simp only [Exec.lookup]
    split <;> rfl
  | unary | key => exact Or.inl (heap_lift _ _ m)
  | binary | read | write | combine => exact Or.inl (heap_operate _ _ m)
  | startWalk | visit => exact Or.inl (heap_consult _ m)
  | condition here present v => cases v <;> exact Or.inl rfl
  | newArray elements => exact Or.inr (.newArray _)
  | newDict pairs => exact Or.inr (.newDict pairs)
  | store m written => exact Or.inr (.write _ _ _ written)
  | @native b site arguments respond response here =>
    simp only [Builtin.reply]
    cases hr : respond m.heap with
    | ok r => exact response.edit hr
    | error cause => exact Or.inl rfl

end Heaps

/-- The node that a task evaluates belongs to the territory. -/
def Task.Within (T : Territory) {α : Type} : Task α → Prop
  | .expr _ e => T.nodes (.expr e)
  | .stmt _ s _ => T.nodes (.stmt s)
  | .turns _ l c body _ => T.nodes (.stmt (.whileLoop l c body))
  | .visits _ vars body walk _ =>
    ∃ iterable, T.nodes (.stmt (.forEach walk.location vars iterable body))
  | .resume t => t.elim

/-- Every task belongs to the territory of everything. -/
theorem Task.within_all {α : Type} (t : Task α) : t.Within .all := by
  cases t with
  | visits => exact ⟨.absent, trivial⟩
  | resume t => exact t.elim
  | _ => exact trivial

namespace Plan

/-- Everything that a plan does, if it is carried out on a machine, keeps to a territory. A scripted
host tries nothing. -/
def Within (ctx : Context) (fuel : Nat) (T : Territory) {α : Type} : Plan α → Machine → Prop
  | .piece x, m => Piece ctx T x m
  | .task t, _ => t.Within T
  | .call _ _ site, _ => T.sites site.location
  | .bind p rest, m => p.Within ctx fuel T m ∧
      ∀ a m₁, p.run ctx fuel m = .ok a m₁ → (rest a).Within ctx fuel T m₁
  | .inScope parent body, m =>
      (body (m.scopes.enter (some parent)).1).Within ctx fuel T (Moment.opened m parent)
  | .attempt _, _ => False

section Combinators

variable {ctx : Context} {fuel : Nat} {T : Territory} {α β : Type} {m : Machine}

/-- A value alone keeps to any territory. -/
theorem within_pure (a : α) (m : Machine) : (pure a : Plan α).Within ctx fuel T m :=
  Piece.pure a m

/-- One thing after another, whatever the first one gives. -/
theorem Within.bind {p : Plan α} {rest : α → Plan β} (hp : p.Within ctx fuel T m)
    (hrest : ∀ a m₁, (rest a).Within ctx fuel T m₁) : (p >>= rest).Within ctx fuel T m :=
  ⟨hp, fun a m₁ _ ↦ hrest a m₁⟩

/-- One thing after a piece, with what the piece gives. -/
theorem Within.after {x : Exec α} {rest : α → Plan β} (hx : Piece ctx T x m)
    (hrest : ∀ a m₁, x m = .ok a m₁ → (rest a).Within ctx fuel T m₁) :
    (piece x >>= rest).Within ctx fuel T m := ⟨hx, hrest⟩

private theorem Within.operate {l : Location} {f : Heap → Except Cause α} {rest : α → Plan β}
    (hx : Piece ctx T (operate l f) m)
    (hrest : ∀ a, f m.heap = .ok a → (rest a).Within ctx fuel T m) :
    (piece (Exec.operate l f) >>= rest).Within ctx fuel T m := by
  refine ⟨hx, fun a m₁ ha ↦ ?_⟩
  obtain ⟨x, m₂, hi, hl⟩ := (bind_eq_ok_iff _ _ _ _ _).mp ha
  obtain ⟨rfl, rfl⟩ := (inspect_eq_ok_iff _ _ _ _).mp hi
  obtain ⟨hf, rfl⟩ := (lift_eq_ok_iff _ _ _ _ _).mp hl
  exact hrest a hf

/-- A choice keeps to the territory if both alternatives do. -/
theorem Within.ite {c : Prop} [Decidable c] {p q : Plan α} (hp : p.Within ctx fuel T m)
    (hq : q.Within ctx fuel T m) : (if c then p else q).Within ctx fuel T m := by
  split
  · exact hp
  · exact hq

private theorem within_eval {e : Expr} (he : T.nodes (.expr e)) (scope : ScopeId) (m : Machine) :
    (eval scope e).Within ctx fuel T m := he

/-- Sequences keep to a territory that their parts keep to on every machine. -/
theorem sequential_within : Sequential fun p ↦ ∀ m, p.Within ctx fuel T m where
  pure := within_pure
  bind hp hrest m := (hp m).bind hrest

private theorem within_evals {es : List Expr} (hes : ∀ e ∈ es, T.nodes (.expr e))
    (scope : ScopeId) : ∀ m, (each (eval scope) es).Within ctx fuel T m :=
  sequential_within.each fun _ he _ ↦ hes _ he

/-- A list of statements of the territory keeps to it. -/
theorem within_body {ss : List Stmt} (hss : ∀ s ∈ ss, T.nodes (.stmt s)) (scope : ScopeId)
    (flags : Flags) : ∀ m, (body scope ss flags).Within ctx fuel T m :=
  sequential_within.body fun _ hs _ _ ↦ hss _ hs

/-- A block of statements of the territory keeps to it. -/
theorem within_block {ss : List Stmt} (hss : ∀ s ∈ ss, T.nodes (.stmt s)) (parent : ScopeId)
    (bindings : List (Bytes × Value)) (flags : Flags) (m : Machine) :
    (block parent bindings ss flags).Within ctx fuel T m :=
  Within.after (.bindAll _ bindings _) fun _ m₁ _ ↦ within_body hss _ flags m₁

end Combinators
end Plan

section Plans

variable {ctx : Context} {fuel : Nat} {T : Territory}

/-- The plan of a built-in function that was called from a place of the territory. Printing
needs no such place. -/
theorem Builtin.within_plan {b : Builtin} {site : Token} (hb : b = .print ∨ T.sites site.location)
    (arguments : List Value) (m : Machine) :
    (b.plan ctx arguments site).Within ctx fuel T m := by
  rcases b.native_or_host arguments with ⟨respond, response⟩ | ⟨name, answer, rfl⟩
  · rw [response.plan_eq]
    exact .native response hb m
  · have here : T.sites site.location := hb.resolve_left fun h ↦ by cases h
    rw [plan_host]
    refine Within.after (.logCall name arguments site m) fun _ m₁ _ ↦ ?_
    cases answer with
    | value v => exact within_pure v m₁
    | failure detail => exact .failure here detail m₁
    | call callee => exact here

variable (hT : T.Closed ctx)
include hT

private theorem Plan.within_entry {l : Location} {entries : List (Expr × Expr)}
    (hd : T.nodes (.expr (.dict l entries))) (scope : ScopeId) {e : Expr × Expr}
    (he : e ∈ entries) (m : Machine) : (entry scope l e).Within ctx fuel T m := by
  obtain ⟨key, value⟩ := e
  have hchild (e : Expr) (h : e = key ∨ e = value) : T.nodes (.expr e) := by
    apply hT.children hd
    apply List.mem_map_of_mem
    exact List.mem_flatMap.mpr ⟨(key, value), he, by simpa using h⟩
  refine (within_eval (hchild key (Or.inl rfl)) scope m).bind fun k m₁ ↦ ?_
  refine Within.bind ?_ fun k m₂ ↦
    (within_eval (hchild value (Or.inr rfl)) scope m₂).bind fun v m₃ ↦ within_pure _ m₃
  -- A key that is absent has no place, so the dictionary's is given instead.
  cases hk : key.isPresent with
  | true => exact .key (n := .expr key) (hchild key (Or.inl rfl)) hk k m₁
  | false => exact .key (n := .expr (.dict l entries)) hd rfl k m₁

/-- The plan of an expression of the territory. -/
theorem Expr.within_plan {e : Expr} (he : T.nodes (.expr e)) (scope : ScopeId) (m : Machine) :
    (e.plan scope).Within ctx fuel T m := by
  have hchild {e' : Expr} (h : e' ∈ e.children) : T.nodes (.expr e') :=
    hT.children he (List.mem_map_of_mem h)
  cases e with
  | absent | int | str | bool | none => exact within_pure _ m
  | ident l name => exact .lookup he scope m
  | unary l op operand =>
    exact (within_eval (hchild (by simp [children])) scope m).bind fun v m₁ ↦ .unary he v m₁
  | binary l op left right =>
    have hcondition (m : Machine) : (do
        return .bool (← piece (condition l (← eval scope right))) : Plan Value).Within
          ctx fuel T m :=
      (within_eval (hchild (by simp [children])) scope m).bind fun b m₁ ↦
        Within.after (.condition (n := .expr (.binary l op left right)) he rfl b m₁)
          fun _ m₂ _ ↦ within_pure _ m₂
    refine (within_eval (hchild (by simp [children])) scope m).bind fun a m₁ ↦ ?_
    have hfirst : Piece ctx T (condition l a) m₁ :=
      .condition (n := .expr (.binary l op left right)) he rfl a m₁
    apply Within.ite
    · exact Within.after hfirst fun _ m₂ _ ↦ (hcondition m₂).ite (within_pure _ m₂)
    · apply Within.ite
      · exact Within.after hfirst fun _ m₂ _ ↦ (within_pure _ m₂).ite (hcondition m₂)
      · exact (within_eval (hchild (by simp [children])) scope m₁).bind fun b m₂ ↦
          .binary he a b m₂
  | index l object key =>
    refine (within_eval (hchild (by simp [children])) scope m).bind fun container m₁ ↦ ?_
    exact (within_eval (hchild (by simp [children])) scope m₁).bind fun k m₂ ↦
      .read he container k m₂
  | array l elements =>
    exact (within_evals (fun e he' ↦ hchild he') scope m).bind fun vs m₁ ↦ .newArray vs m₁
  | dict l entries =>
    refine Within.bind (sequential_within.each (fun _ he' ↦ within_entry hT he scope he') m)
      fun pairs m₁ ↦ ?_
    exact .newDict pairs m₁
  | call l receiver callee arguments =>
    exact (within_evals (fun e he' ↦ hchild he') scope m).bind fun vs m₁ ↦ hT.call he
  | bare l => exact .misfit (n := .expr (.bare l)) he rfl rfl m

private theorem Stmt.within_assignPlan {l : Location} {target value : Expr} {text : Bytes}
    {op : AssignOp} (hs : T.nodes (.stmt (.assign l target text value)))
    (hop : AssignOp.ofText? text = some op)
    (scope : ScopeId) (flags : Flags) (m : Machine) :
    (assignPlan scope l target op value flags).Within ctx fuel T m := by
  have htarget : T.nodes (.expr target) :=
    hT.children hs (Node.expr_mem_children (by simp [expressions]))
  have hvalue : T.nodes (.expr value) :=
    hT.children hs (Node.expr_mem_children (by simp [expressions]))
  cases target with
  | ident lt name =>
    have hstore (current : Value) (m : Machine) : (do
        let new ← eval scope value
        let v ← piece (operate l fun h ↦ op.combine h current new)
        piece (Exec.assign scope name v)
        pure flags : Plan Flags).Within ctx fuel T m := by
      refine (within_eval hvalue scope m).bind fun new m₁ ↦ ?_
      refine Within.after (.combine hs hop current new m₁) fun v m₂ _ ↦ ?_
      exact Within.after (.assign scope name v m₂) fun _ m₃ _ ↦ within_pure flags m₃
    exact Within.ite ((within_pure _ m).bind hstore)
      (Within.after (.lookup htarget scope m) fun current m₁ _ ↦ hstore current m₁)
  | index lt object key =>
    have hchild {e : Expr} (h : e ∈ (Expr.index lt object key).children) : T.nodes (.expr e) :=
      hT.children htarget (List.mem_map_of_mem h)
    refine (within_eval (hchild (by simp [Expr.children])) scope m).bind fun container m₁ ↦ ?_
    refine (within_eval (hchild (by simp [Expr.children])) scope m₁).bind fun k m₂ ↦ ?_
    refine (within_eval hvalue scope m₂).bind fun new m₃ ↦ ?_
    have hstore (current : Value) (m : Machine) : (do
        let v ← piece (operate l fun h ↦ op.combine h current new)
        let heap ← piece (operate lt (·.write container k v))
        piece (modifyHeap fun _ ↦ heap)
        pure flags : Plan Flags).Within ctx fuel T m := by
      refine Within.after (.combine hs hop current new m) fun v m₁ _ ↦ ?_
      refine Within.operate (.write htarget container k v m₁) fun heap written ↦ ?_
      exact Within.after (.store m₁ written) fun _ m₂ _ ↦ within_pure flags m₂
    apply Within.ite
    · exact Within.ite ((within_pure _ m₃).bind hstore)
        (Within.after (.read htarget container k m₃) fun current m₄ _ ↦ hstore current m₄)
    · exact Piece.notIndexAssignable htarget _ m₃
  | _ => exact .misfit (n := .stmt (.assign l _ text value)) hs rfl rfl m

private theorem Stmt.within_forEach {l : Location} {vars : LoopVars} {iterable : Expr}
    {statements : List Stmt} (hs : T.nodes (.stmt (.forEach l vars iterable statements)))
    (scope : ScopeId) (flags : Flags) (m : Machine) :
    ((Stmt.forEach l vars iterable statements).plan ctx scope flags).Within ctx fuel T m := by
  refine (within_eval (hT.children hs (Node.expr_mem_children (by simp [expressions]))) scope
    m).bind fun v m₁ ↦ ?_
  have hloop : (do
      let walk ← piece (consult fun h ↦ Walk.start h v l)
      let inner ← task (.visits scope vars statements walk flags.enterLoop)
      pure (inner.leaveLoop flags) : Plan Flags).Within ctx fuel T m₁ := by
    refine Within.after (.startWalk hs v m₁) fun walk m₂ hwalk ↦ ?_
    obtain ⟨hstart, -⟩ := (consult_eq_ok_iff _ _ _ _).mp hwalk
    have hl := Walk.location_of_start hstart
    refine Within.bind (p := task _) ⟨iterable, ?_⟩ fun _ m₃ ↦ within_pure _ m₃
    rw [hl]
    exact hs
  cases vars with
  | single name => exact hloop
  | pair keyName valueName =>
    cases v.type with
    | dictionary => exact hloop
    | _ => exact .misfit (n := .stmt (.forEach l _ iterable statements)) hs rfl rfl m₁

/-- The plan of a statement of the territory. -/
theorem Stmt.within_plan {s : Stmt} (hs : T.nodes (.stmt s)) (scope : ScopeId) (flags : Flags)
    (m : Machine) : (s.plan ctx scope flags).Within ctx fuel T m := by
  have hexpr {e : Expr} (h : e ∈ s.expressions) : T.nodes (.expr e) :=
    hT.children hs (Node.expr_mem_children h)
  have hstmt {t : Stmt} (h : t ∈ s.statements) : T.nodes (.stmt t) :=
    hT.children hs (Node.stmt_mem_children h)
  cases s with
  | absent | breakLoop | continueLoop => exact within_pure _ m
  | declare l name value =>
    refine (within_eval (hexpr (by simp [expressions])) scope m).bind fun v m₁ ↦ ?_
    exact Within.after (.declare scope name v m₁) fun _ m₂ _ ↦ within_pure _ m₂
  | assign l target text value =>
    cases hop : AssignOp.ofText? text with
    | none =>
      simp only [plan, hop]
      exact .misfit (n := .stmt (.assign l target text value)) hs rfl rfl m
    | some op =>
      simp only [plan, hop]
      exact within_assignPlan hT hs hop scope flags m
  | print l arguments =>
    refine (within_evals (fun e he ↦ hexpr he) scope m).bind fun vs m₁ ↦ ?_
    rw [known_eq]
    refine Within.after (.pure ctx m₁) fun now m₂ hnow ↦ ?_
    cases hnow
    cases hb : ctx.builtins[Builtin.print.name]? with
    | none =>
      exact .noPrint hb l m₁
    | some b => exact (b.within_plan (hT.print hs hb) vs m₁).bind fun _ m₂ ↦ within_pure _ m₂
  | evaluate l e =>
    exact (within_eval (hexpr (by simp [expressions])) scope m).bind fun _ m₁ ↦ within_pure _ m₁
  | ifThen l c statements =>
    refine (within_eval (hexpr (by simp [expressions])) scope m).bind fun v m₁ ↦ ?_
    refine Within.after (.condition (n := .stmt (.ifThen l c statements)) hs rfl v m₁)
      fun _ m₂ _ ↦ ?_
    exact (within_block (fun t ht ↦ hstmt ht) _ _ _ m₂).ite (within_pure _ m₂)
  | ifElse l c statements otherwise =>
    refine (within_eval (hexpr (by simp [expressions])) scope m).bind fun v m₁ ↦ ?_
    refine Within.after (.condition (n := .stmt (.ifElse l c statements otherwise)) hs rfl v m₁)
      fun _ m₂ _ ↦ ?_
    exact (within_block (fun t ht ↦ hstmt (List.mem_append_left _ ht)) _ _ _ m₂).ite
      (within_block (fun t ht ↦ hstmt (List.mem_append_right _ ht)) _ _ _ m₂)
  | whileLoop l c statements => exact Within.bind (p := task _) hs fun _ m₁ ↦ within_pure _ m₁
  | forEach l vars iterable statements => exact within_forEach hT hs scope flags m
  | returnValue l value =>
    exact (within_eval (hexpr (by simp [expressions])) scope m).bind fun _ m₁ ↦ within_pure _ m₁
  | function l name parameters statements =>
    exact .misfit (n := .stmt (.function l name parameters statements)) hs rfl rfl m
  | bare l => exact .misfit (n := .stmt (.bare l)) hs rfl rfl m

/-- The plan of a task of the territory. -/
theorem Task.within_plan {α : Type} {t : Task α} (ht : t.Within T) (m : Machine) :
    (t.plan ctx).Within ctx fuel T m := by
  cases t with
  | expr scope e => exact Expr.within_plan hT ht scope m
  | stmt scope s flags => exact Stmt.within_plan hT ht scope flags m
  | turns scope l c statements flags =>
    have hexpr : T.nodes (.expr c) :=
      hT.children ht (Node.expr_mem_children (by simp [Stmt.expressions]))
    have hstmt {s : Stmt} (h : s ∈ statements) : T.nodes (.stmt s) :=
      hT.children ht (Node.stmt_mem_children h)
    refine (within_eval hexpr scope m).bind fun v m₁ ↦ ?_
    refine Within.after (.condition (n := .stmt (.whileLoop l c statements)) ht rfl v m₁)
      fun _ m₂ _ ↦ ?_
    refine Within.ite ?_ (within_pure _ m₂)
    refine (within_block (fun s hs ↦ hstmt hs) _ _ _ m₂).bind fun flags m₃ ↦ ?_
    exact Within.ite (within_pure _ m₃) ht
  | visits scope vars statements walk flags =>
    obtain ⟨iterable, hs⟩ := ht
    have hstmt {s : Stmt} (h : s ∈ statements) : T.nodes (.stmt s) :=
      hT.children hs (Node.stmt_mem_children h)
    refine Within.after (.visit hs m) fun next m₁ hnext ↦ ?_
    cases next with
    | none => exact within_pure _ m₁
    | some next =>
      obtain ⟨key, value, walk'⟩ := next
      obtain ⟨hvisit, -⟩ := (consult_eq_ok_iff _ _ _ _).mp hnext
      have hl : walk'.location = walk.location := by
        have hplace := walk.location_next m.heap
        rwa [Walk.next_of_visit? hvisit] at hplace
      refine (within_block (fun s hs ↦ hstmt hs) _ _ _ m₁).bind fun flags m₂ ↦ ?_
      refine Within.ite (within_pure _ m₂) ⟨iterable, ?_⟩
      rw [hl]
      exact hs
  | resume t => exact t.elim

/-- What a call is resolved to keeps to the territory. -/
theorem Context.within_of_resolve {name : Bytes} {arguments : List Value} {site : Token}
    {callee : Callee} (hsite : T.sites site.location)
    (h : ctx.resolve name arguments site = .ok callee) (m : Machine) :
    callee.body.Within ctx fuel T m := by
  unfold resolve at h
  split at h
  · next f hf =>
    split at h
    · cases h
      exact (within_block (fun s hs ↦ hT.body hf hs) _ _ _ m).bind fun _ m₁ ↦ within_pure _ m₁
    · cases h
  · split at h
    · next b _ =>
      cases h
      exact b.within_plan (Or.inr hsite) arguments m
    · cases h

end Plans

namespace Moment

variable {ctx : Context} {T : Territory} {p q : Moment}

/-- A moment whose plan keeps to a territory. -/
def Within (ctx : Context) (T : Territory) (p : Moment) : Prop :=
  p.plan.Within ctx p.fuel T p.machine

/-- What is entered keeps to the territory. -/
theorem Enters.within (hT : T.Closed ctx) (h : Enters ctx p q) (hp : p.Within ctx T) :
    q.Within ctx T := by
  cases h with
  | first fuel x rest m => exact hp.1
  | next rest done => exact hp.2 _ _ done
  | scope fuel parent body m => exact hp
  | task fuel t m => exact Task.within_plan hT hp m
  | call fuel m resolved room => exact Context.within_of_resolve hT hp (by simpa using resolved) _

/-- So does everything that a run passes through. -/
theorem Passes.within (hT : T.Closed ctx) (h : Passes ctx p q) (hp : p.Within ctx T) :
    q.Within ctx T := by
  induction h with
  | refl => exact hp
  | tail _ hentered ih => exact hentered.within hT ih

end Moment
end Scriptlet
