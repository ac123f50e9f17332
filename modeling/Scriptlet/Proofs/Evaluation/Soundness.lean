import Scriptlet.Proofs.Evaluation.Signal
import Scriptlet.Proofs.Evaluation.Success

/-!
# Evaluation follows the rules

What evaluation ends with successfully can be derived by the rules of completions: the value of
an expression or a call directly, the completion of a statement read off its flags. The proof
goes by induction on the fuel, for everything that is evaluated at once.
-/

namespace Scriptlet

open Exec

/-- The completions that are derived fit their places. -/
theorem BigStep.fits {ctx : Context} {m m' : Machine} {j : Judgement} (h : BigStep ctx m j m') :
    j.Fits := by
  induction h with
  | breakLoop | continueLoop => rfl
  | ifTrue _ _ _ ih | elseTrue _ _ _ ih | elseFalse _ _ _ ih | next _ _ _ ih | stop _ _ ih
  | block _ ih | turnsNext _ _ _ _ _ _ ih | visitsNext _ _ _ _ _ ih => exact ih
  | whileLoop _ ih | forEach _ _ _ _ _ ih => exact ih.of_outside
  | _ => exact trivial

section Turns

variable {ctx : Context} {fuel : Nat} {m m₁ m₂ : Machine} {scope : ScopeId} {body : List Stmt}
  {flags : Flags} {c : Completion}

/-- After a turn a loop ends, or goes on with the flags it was entered with. -/
theorem repeatWhile_of_turn {test : Expr} (hf : flags.stops = false)
    (htest : evalExpr ctx fuel scope test m = .ok (.bool true) m₁)
    (hturn : runScoped scope [] (execStmt ctx fuel) body flags.enterLoop m₁ =
      .ok (flags.enterLoop.signal c) m₂) (l : Location) :
    repeatWhile ctx (fuel + 1) scope l test body flags.enterLoop m =
      if c = .normal ∨ c = .continued then
        repeatWhile ctx fuel scope l test body flags.enterLoop m₂
      else .ok (flags.enterLoop.signal c) m₂ := by
  rw [repeatWhile, bind_of_ok htest, bind_of_ok (condition_bool l true m₁), if_pos rfl,
    bind_of_ok hturn, Flags.ends_signal hf]
  by_cases hgoes : c = .normal ∨ c = .continued
  · simp [hgoes, flags.nextTurn_signal hgoes]
  · simp only [hgoes, not_false_eq_true, decide_true, if_true, if_false]
    rfl

/-- After a visit a loop ends, or goes on with the flags it was entered with. -/
theorem visitEach_of_entry {vars : LoopVars} {walk walk' : Walk} {key value : Value}
    (hf : flags.stops = false) (hentry : walk.next m.heap = (.entry key value, walk'))
    (hturn : runScoped scope (vars.bindings walk'.overDict key value) (execStmt ctx fuel) body
      flags.enterLoop m = .ok (flags.enterLoop.signal c) m₁) :
    visitEach ctx (fuel + 1) scope vars body walk flags.enterLoop m =
      if c = .normal ∨ c = .continued then
        visitEach ctx fuel scope vars body walk' flags.enterLoop m₁
      else .ok (flags.enterLoop.signal c) m₁ := by
  rw [visitEach, bind_of_ok (inspect_run _ m), hentry]
  simp only
  rw [bind_of_ok hturn, Flags.ends_signal hf]
  by_cases hgoes : c = .normal ∨ c = .continued
  · simp [hgoes, flags.nextTurn_signal hgoes]
  · simp only [hgoes, not_false_eq_true, decide_true, if_true, if_false]
    rfl

end Turns

/-- What evaluation with some fuel succeeds in can be derived. -/
structure Sound (ctx : Context) (fuel : Nat) : Prop where
  expr : ∀ scope e m m' v, evalExpr ctx fuel scope e m = .ok v m' →
    BigStep ctx m (.expr scope e v) m'
  stmt : ∀ scope s flags m m' flags', flags.stops = false →
    execStmt ctx fuel scope s flags m = .ok flags' m' →
    ∃ c, BigStep ctx m (.stmt scope flags.inLoop s c) m' ∧ flags' = flags.signal c
  whileLoop : ∀ scope l test body flags m m' flags', flags.stops = false →
    repeatWhile ctx fuel scope l test body flags.enterLoop m = .ok flags' m' →
    ∃ c, BigStep ctx m (.turns scope test body c) m' ∧ flags'.leaveLoop flags = flags.signal c
  forEach : ∀ scope vars body walk flags m m' flags', flags.stops = false →
    visitEach ctx fuel scope vars body walk flags.enterLoop m = .ok flags' m' →
    ∃ c, BigStep ctx m (.visits scope vars body walk c) m' ∧
      flags'.leaveLoop flags = flags.signal c
  call : ∀ name arguments site m m' v,
    callFunction ctx fuel name arguments site m = .ok v m' →
    BigStep ctx m (.call name arguments site v) m'

namespace Sound

variable {ctx : Context} {fuel : Nat}

private theorem zero (ctx : Context) : Sound ctx 0 where
  expr scope e m m' v he := by
    rw [evalExpr] at he
    exact absurd he (throw_ne_ok _ m m' v)
  stmt scope s flags m m' flags' hf hs := by
    rw [execStmt] at hs
    exact absurd hs (throw_ne_ok _ m m' flags')
  whileLoop scope l test body flags m m' flags' hf hr := by
    rw [repeatWhile] at hr
    exact absurd hr (throw_ne_ok _ m m' flags')
  forEach scope vars body walk flags m m' flags' hf hv := by
    rw [visitEach] at hv
    exact absurd hv (throw_ne_ok _ m m' flags')
  call name arguments site m m' v hc := by
    rw [callFunction] at hc
    exact absurd hc (throw_ne_ok _ m m' v)

section Lists

private theorem exprs (h : Sound ctx fuel) (scope : ScopeId) (es : List Expr) (m m' : Machine)
    (vs : List Value) (he : es.mapM (evalExpr ctx fuel scope) m = .ok vs m') :
    BigStep ctx m (.exprs scope es vs) m' := by
  induction es generalizing m vs with
  | nil =>
    obtain ⟨rfl, rfl⟩ := (mapM_nil_eq_ok_iff _ m m' vs).mp he
    exact .exprsNil
  | cons e es ih =>
    obtain ⟨v, m₁, rest, hv, hrest, rfl⟩ := (mapM_cons_eq_ok_iff _ e es m m' vs).mp he
    exact .exprsCons (h.expr scope e m m₁ v hv) (ih m₁ rest hrest)

/-- Statements in a row. -/
theorem stmts (h : Sound ctx fuel) (scope : ScopeId) (ss : List Stmt) (flags flags' : Flags)
    (m m' : Machine) (hf : flags.stops = false)
    (hs : runBody (execStmt ctx fuel scope) ss flags m = .ok flags' m') :
    ∃ c, BigStep ctx m (.stmts scope flags.inLoop ss c) m' ∧ flags' = flags.signal c := by
  induction ss generalizing m with
  | nil =>
    rw [runBody, pure_eq_ok_iff] at hs
    obtain ⟨rfl, rfl⟩ := hs
    exact ⟨.normal, .nil, rfl⟩
  | cons s ss ih =>
    rw [runBody, bind_eq_ok_iff] at hs
    obtain ⟨flags₁, m₁, hfirst, hrest⟩ := hs
    obtain ⟨c, hc, rfl⟩ := h.stmt scope s flags m m₁ flags₁ hf hfirst
    rw [Flags.stops_signal hf hc.fits] at hrest
    by_cases hn : c = .normal
    · -- The flags are those before the statement, and the list goes on.
      subst hn
      obtain ⟨k, hk, he⟩ := ih m₁ hrest
      exact ⟨k, .next hc hk, he⟩
    · simp only [ne_eq, hn, not_false_eq_true, decide_true, if_true, pure_eq_ok_iff] at hrest
      obtain ⟨rfl, rfl⟩ := hrest
      exact ⟨c, .stop hc hn, rfl⟩

/-- What a block comes to when it is executed can be derived. -/
theorem block (h : Sound ctx fuel) (parent : ScopeId) (bindings : List (Bytes × Value))
    (body : List Stmt) (flags flags' : Flags) (m m' : Machine) (hf : flags.stops = false)
    (hb : runScoped parent bindings (execStmt ctx fuel) body flags m = .ok flags' m') :
    ∃ c, BigStep ctx m (.block parent bindings flags.inLoop body c) m' ∧
      flags' = flags.signal c := by
  simp only [runScoped, withScope_eq_ok_iff, bind_eq_ok_iff, bindAll_eq_ok_iff] at hb
  obtain ⟨m₁, ⟨_, _, rfl, hbody⟩, rfl⟩ := hb
  obtain ⟨c, hc, he⟩ := h.stmts _ body flags flags' _ m₁ hf hbody
  exact ⟨c, .block hc, he⟩

end Lists

private theorem builtin (h : Sound ctx fuel) (b : Builtin) (arguments : List Value) (site : Token)
    (m m' : Machine) (v : Value)
    (hb : b.run (ctx.services fuel) arguments site m = .ok v m') :
    BigStep ctx m (.builtin b arguments site v) m' := by
  cases b with
  | host name answer =>
    cases answer with
    | call callee =>
      simp only [Builtin.run_host, Builtin.runHost, bind_eq_ok_iff] at hb
      obtain ⟨_, m₁, hlog, hcall⟩ := hb
      exact .forward hlog (h.call callee arguments site m₁ m' v hcall)
    | _ => exact .answer fun _ ↦ hb
  | _ => exact .answer fun _ ↦ hb

section Expressions

private theorem binary (h : Sound ctx fuel) (scope : ScopeId) (l : Location) (op : Bytes)
    (left right : Expr) (m m' : Machine) (v : Value)
    (he : evalExpr ctx (fuel + 1) scope (.binary l op left right) m = .ok v m') :
    BigStep ctx m (.expr scope (.binary l op left right) v) m' := by
  simp only [evalExpr, bind_eq_ok_iff] at he
  obtain ⟨a, m₁, hleft, he⟩ := he
  have ha := h.expr scope left m m₁ a hleft
  by_cases hand : op = "&&"
  · subst hand
    simp only [if_true, bind_eq_ok_iff, condition_eq_ok_iff] at he
    obtain ⟨b, _, ⟨rfl, rfl⟩, he⟩ := he
    cases b with
    | false =>
      obtain ⟨rfl, rfl⟩ := (pure_eq_ok_iff _ _ _ _).mp he
      exact .andFalse ha
    | true =>
      simp only [if_true, bind_eq_ok_iff, condition_eq_ok_iff, pure_eq_ok_iff] at he
      obtain ⟨c, _, hright, b, _, ⟨rfl, rfl⟩, rfl, rfl⟩ := he
      exact .andTrue ha (h.expr scope right _ _ _ hright)
  · by_cases hor : op = "||"
    · subst hor
      simp only [hand, if_false, if_true, bind_eq_ok_iff, condition_eq_ok_iff] at he
      obtain ⟨b, _, ⟨rfl, rfl⟩, he⟩ := he
      cases b with
      | true =>
        obtain ⟨rfl, rfl⟩ := (pure_eq_ok_iff _ _ _ _).mp he
        exact .orTrue ha
      | false =>
        simp only [Bool.false_eq_true, if_false, bind_eq_ok_iff, condition_eq_ok_iff,
          pure_eq_ok_iff] at he
        obtain ⟨c, _, hright, b, _, ⟨rfl, rfl⟩, rfl, rfl⟩ := he
        exact .orFalse ha (h.expr scope right _ _ _ hright)
    · simp only [hand, hor, if_false, bind_eq_ok_iff, inspect_eq_ok_iff, lift_eq_ok_iff] at he
      obtain ⟨b, m₂, hright, _, _, ⟨rfl, rfl⟩, hv, rfl⟩ := he
      exact .binary hand hor ha (h.expr scope right m₁ _ b hright) hv

private theorem entries (h : Sound ctx fuel) (scope : ScopeId) (l : Location)
    (es : List (Expr × Expr)) (m m' : Machine) (pairs : List (Key × Value))
    (he : es.mapM (entry (evalExpr ctx fuel scope) l) m = .ok pairs m') :
    BigStep ctx m (.entries scope es pairs) m' := by
  induction es generalizing m pairs with
  | nil =>
    obtain ⟨rfl, rfl⟩ := (mapM_nil_eq_ok_iff _ m m' pairs).mp he
    exact .entriesNil
  | cons e es ih =>
    obtain ⟨p, m₃, rest, hp, hrest, rfl⟩ := (mapM_cons_eq_ok_iff _ e es m m' pairs).mp he
    simp only [entry, bind_eq_ok_iff, lift_eq_ok_iff, pure_eq_ok_iff] at hp
    obtain ⟨a, m₁, ha, k, _, ⟨hk, rfl⟩, v, _, hv, rfl, rfl⟩ := hp
    exact .entriesCons (h.expr scope e.1 m _ a ha) hk (h.expr scope e.2 _ _ v hv)
      (ih _ rest hrest)

private theorem expr_succ (h : Sound ctx fuel) (scope : ScopeId) (e : Expr) (m m' : Machine)
    (v : Value) (he : evalExpr ctx (fuel + 1) scope e m = .ok v m') :
    BigStep ctx m (.expr scope e v) m' := by
  cases e with
  | absent | int l n | str l t | bool l b | none l =>
    simp only [evalExpr, pure_eq_ok_iff] at he
    obtain ⟨rfl, rfl⟩ := he
    constructor
  | ident l name =>
    simp only [evalExpr, lookup_eq_ok_iff] at he
    obtain ⟨hv, rfl⟩ := he
    exact .ident hv
  | unary l op operand =>
    simp only [evalExpr, bind_eq_ok_iff, lift_eq_ok_iff] at he
    obtain ⟨a, _, ha, hv, rfl⟩ := he
    exact .unary (h.expr scope operand m _ a ha) hv
  | binary l op left right => exact h.binary scope l op left right m m' v he
  | index l object key =>
    simp only [evalExpr, bind_eq_ok_iff, inspect_eq_ok_iff, lift_eq_ok_iff] at he
    obtain ⟨c, m₁, hc, k, _, hk, _, _, ⟨rfl, rfl⟩, hv, rfl⟩ := he
    exact .index (h.expr scope object m m₁ c hc) (h.expr scope key m₁ _ k hk) hv
  | array l elements =>
    simp only [evalExpr, bind_eq_ok_iff] at he
    obtain ⟨vs, m₁, hvs, hmade⟩ := he
    exact .array (h.exprs scope elements m m₁ vs hvs) hmade
  | dict l es =>
    simp only [evalExpr, bind_eq_ok_iff] at he
    obtain ⟨pairs, m₁, hpairs, hmade⟩ := he
    exact .dict (h.entries scope l es m m₁ pairs hpairs) hmade
  | call l receiver callee arguments =>
    simp only [evalExpr, bind_eq_ok_iff] at he
    obtain ⟨vs, m₁, hvs, hcall⟩ := he
    exact .call (h.exprs scope _ m m₁ vs hvs) (h.call callee vs _ m₁ m' v hcall)
  | bare l =>
    simp only [evalExpr] at he
    exact absurd he (raise_ne_ok _ l m m' v)

end Expressions

section Statements

private theorem assign (h : Sound ctx fuel) (scope : ScopeId) (l lt : Location) (name op : Bytes)
    (value : Expr) (flags flags' : Flags) (m m' : Machine)
    (hs : execStmt ctx (fuel + 1) scope (.assign l (.ident lt name) op value) flags m =
      .ok flags' m') :
    BigStep ctx m (.stmt scope flags.inLoop (.assign l (.ident lt name) op value) .normal) m' ∧
      flags' = flags := by
  simp only [execStmt] at hs
  cases hop : AssignOp.ofText? op with
  | none =>
    rw [hop] at hs
    exact absurd hs (raise_ne_ok _ l m m' flags')
  | some a =>
    rw [hop] at hs
    cases a with
    | plain =>
      simp only [if_true, AssignOp.combine, bind_eq_ok_iff, pure_eq_ok_iff, inspect_eq_ok_iff,
        lift_eq_ok_iff, assign_eq_ok_iff] at hs
      obtain ⟨_, _, ⟨rfl, rfl⟩, v, _, hv, _, _, ⟨rfl, rfl⟩, _, _, ⟨hw, rfl⟩, _, _, rfl, rfl, rfl⟩ :=
        hs
      cases hw
      exact ⟨.assign hop (h.expr scope value _ _ v hv), rfl⟩
    | compound o =>
      simp only [reduceCtorEq, if_false, AssignOp.combine, bind_eq_ok_iff, pure_eq_ok_iff,
        lookup_eq_ok_iff, inspect_eq_ok_iff, lift_eq_ok_iff, assign_eq_ok_iff] at hs
      obtain ⟨c, _, ⟨hc, rfl⟩, v, _, hv, _, _, ⟨rfl, rfl⟩, w, _, ⟨hw, rfl⟩, _, _, rfl, rfl, rfl⟩ :=
        hs
      exact ⟨.update hop hc (h.expr scope value _ _ v hv) hw, rfl⟩

private theorem assignIndex (h : Sound ctx fuel) (scope : ScopeId) (l lt : Location) (op : Bytes)
    (object key value : Expr) (flags flags' : Flags) (m m' : Machine)
    (hs : execStmt ctx (fuel + 1) scope (.assign l (.index lt object key) op value) flags m =
      .ok flags' m') :
    BigStep ctx m (.stmt scope flags.inLoop (.assign l (.index lt object key) op value) .normal)
        m' ∧ flags' = flags := by
  simp only [execStmt] at hs
  cases hop : AssignOp.ofText? op with
  | none =>
    rw [hop] at hs
    exact absurd hs (raise_ne_ok _ l m m' flags')
  | some a =>
    rw [hop] at hs
    simp only [bind_eq_ok_iff] at hs
    obtain ⟨c, m₁, hc, k, m₂, hk, v, m₃, hv, hs⟩ := hs
    have hc := h.expr scope object m m₁ c hc
    have hk := h.expr scope key m₁ m₂ k hk
    have hv := h.expr scope value m₂ m₃ v hv
    by_cases hcont : c.isContainer = true
    · rw [if_pos hcont] at hs
      cases a with
      | plain =>
        simp only [if_true, AssignOp.combine, bind_eq_ok_iff, pure_eq_ok_iff, inspect_eq_ok_iff,
          lift_eq_ok_iff, modifyHeap_eq_ok_iff] at hs
        obtain ⟨_, _, ⟨rfl, rfl⟩, _, _, ⟨rfl, rfl⟩, _, _, ⟨hw, rfl⟩, _, _, ⟨rfl, rfl⟩, heap, _,
          ⟨hheap, rfl⟩, _, _, rfl, rfl, rfl⟩ := hs
        cases hw
        exact ⟨.write hop hc hk hv hcont hheap, rfl⟩
      | compound o =>
        simp only [reduceCtorEq, if_false, AssignOp.combine, bind_eq_ok_iff, pure_eq_ok_iff,
          inspect_eq_ok_iff, lift_eq_ok_iff, modifyHeap_eq_ok_iff] at hs
        obtain ⟨_, _, ⟨rfl, rfl⟩, old, _, ⟨hold, rfl⟩, _, _, ⟨rfl, rfl⟩, w, _, ⟨hw, rfl⟩, _, _,
          ⟨rfl, rfl⟩, heap, _, ⟨hheap, rfl⟩, _, _, rfl, rfl, rfl⟩ := hs
        exact ⟨.writeUpdate hop hc hk hv hcont hold hw hheap, rfl⟩
    · rw [if_neg hcont] at hs
      exact absurd hs (raise_ne_ok _ lt m₃ m' flags')

private theorem forEachStmt (h : Sound ctx fuel) (scope : ScopeId) (l : Location) (vars : LoopVars)
    (iterable : Expr) (body : List Stmt) (flags flags' : Flags) (m m' : Machine)
    (hf : flags.stops = false)
    (hs : execStmt ctx (fuel + 1) scope (.forEach l vars iterable body) flags m =
      .ok flags' m') :
    ∃ c, BigStep ctx m (.stmt scope flags.inLoop (.forEach l vars iterable body) c) m' ∧
      flags' = flags.signal c := by
  simp only [execStmt, bind_eq_ok_iff] at hs
  obtain ⟨v, m₁, hv, hs⟩ := hs
  have hv := h.expr scope iterable m m₁ v hv
  have hwalk (rest : Except ScriptError Walk → Exec Flags)
      (hok : ∀ walk, rest (.ok walk) = do
        return (← visitEach ctx fuel scope vars body walk flags.enterLoop).leaveLoop flags)
      (herror : ∀ e, rest (.error e) = throw (.error e))
      (fits : ∀ key value, vars = .pair key value → v.type = .dictionary)
      (hw : (inspect (fun heap ↦ Walk.start heap v l) >>= rest) m₁ = .ok flags' m') :
      ∃ c, BigStep ctx m (.stmt scope flags.inLoop (.forEach l vars iterable body) c) m' ∧
        flags' = flags.signal c := by
    simp only [bind_eq_ok_iff, inspect_eq_ok_iff] at hw
    obtain ⟨start, _, ⟨hstart, rfl⟩, hw⟩ := hw
    cases start with
    | ok walk =>
      simp only [hok, bind_eq_ok_iff, pure_eq_ok_iff] at hw
      obtain ⟨inner, _, hvisits, rfl, rfl⟩ := hw
      obtain ⟨c, hc, he⟩ := h.forEach scope vars body walk flags _ _ inner hf hvisits
      exact ⟨c, .forEach hv fits hstart.symm hc, he⟩
    | error e =>
      rw [herror] at hw
      exact absurd hw (throw_ne_ok _ _ m' flags')
  cases vars with
  | single name => exact hwalk _ (fun _ ↦ rfl) (fun _ ↦ rfl) (fun _ _ he ↦ by cases he) hs
  | pair keyName valueName =>
    cases htype : v.type with
    | dictionary =>
      rw [htype] at hs
      exact hwalk _ (fun _ ↦ rfl) (fun _ ↦ rfl) (fun _ _ _ ↦ htype) hs
    | _ =>
      rw [htype] at hs
      exact absurd hs (raise_ne_ok _ l m₁ m' flags')

private theorem stmt_succ (h : Sound ctx fuel) (scope : ScopeId) (s : Stmt) (flags : Flags)
    (m m' : Machine) (flags' : Flags) (hf : flags.stops = false)
    (hs : execStmt ctx (fuel + 1) scope s flags m = .ok flags' m') :
    ∃ c, BigStep ctx m (.stmt scope flags.inLoop s c) m' ∧ flags' = flags.signal c := by
  cases s with
  | absent =>
    simp only [execStmt, pure_eq_ok_iff] at hs
    obtain ⟨rfl, rfl⟩ := hs
    exact ⟨.normal, .absentStmt, rfl⟩
  | declare l name value =>
    simp only [execStmt, bind_eq_ok_iff, declare_eq_ok_iff, pure_eq_ok_iff] at hs
    obtain ⟨v, m₁, hv, _, _, rfl, rfl, rfl⟩ := hs
    exact ⟨.normal, .declare (h.expr scope value m m₁ v hv), rfl⟩
  | assign l target op value =>
    cases target with
    | ident lt name =>
      obtain ⟨hd, he⟩ := h.assign scope l lt name op value flags flags' m m' hs
      exact ⟨.normal, hd, he⟩
    | index lt object key =>
      obtain ⟨hd, he⟩ := h.assignIndex scope l lt op object key value flags flags' m m' hs
      exact ⟨.normal, hd, he⟩
    | _ =>
      simp only [execStmt] at hs
      cases hop : AssignOp.ofText? op with
      | none =>
        rw [hop] at hs
        exact absurd hs (raise_ne_ok _ l m m' flags')
      | some a =>
        rw [hop] at hs
        exact absurd hs (raise_ne_ok _ l m m' flags')
  | print l arguments =>
    simp only [execStmt, known_eq, pure_bind, bind_eq_ok_iff] at hs
    obtain ⟨vs, m₁, hvs, hs⟩ := hs
    cases hb : ctx.builtins[Builtin.print.name]? with
    | none =>
      rw [hb] at hs
      exact absurd hs (raise_ne_ok _ l m₁ m' flags')
    | some b =>
      rw [hb] at hs
      simp only [bind_eq_ok_iff, pure_eq_ok_iff] at hs
      obtain ⟨v, _, hrun, rfl, rfl⟩ := hs
      exact ⟨.normal, .print (h.exprs scope arguments m m₁ vs hvs) hb
        (h.builtin b vs _ m₁ _ v hrun), rfl⟩
  | evaluate l e =>
    simp only [execStmt, bind_eq_ok_iff, pure_eq_ok_iff] at hs
    obtain ⟨v, _, hv, rfl, rfl⟩ := hs
    exact ⟨.normal, .evaluate (h.expr scope e m _ v hv), rfl⟩
  | ifThen l test body =>
    simp only [execStmt, bind_eq_ok_iff, condition_eq_ok_iff] at hs
    obtain ⟨_, m₁, hv, b, _, ⟨rfl, rfl⟩, hs⟩ := hs
    have ht := h.expr scope test m _ _ hv
    cases b with
    | true =>
      obtain ⟨c, hc, he⟩ := h.block scope [] body flags flags' _ m' hf hs
      exact ⟨c, .ifTrue ht hc, he⟩
    | false =>
      obtain ⟨rfl, rfl⟩ := (pure_eq_ok_iff _ _ _ _).mp hs
      exact ⟨.normal, .ifFalse ht, rfl⟩
  | ifElse l test body otherwise =>
    simp only [execStmt, bind_eq_ok_iff, condition_eq_ok_iff] at hs
    obtain ⟨_, m₁, hv, b, _, ⟨rfl, rfl⟩, hs⟩ := hs
    have ht := h.expr scope test m _ _ hv
    cases b with
    | true =>
      obtain ⟨c, hc, he⟩ := h.block scope [] body flags flags' _ m' hf hs
      exact ⟨c, .elseTrue ht hc, he⟩
    | false =>
      obtain ⟨c, hc, he⟩ := h.block scope [] otherwise flags flags' _ m' hf hs
      exact ⟨c, .elseFalse ht hc, he⟩
  | whileLoop l test body =>
    simp only [execStmt, bind_eq_ok_iff, pure_eq_ok_iff] at hs
    obtain ⟨inner, _, hturns, rfl, rfl⟩ := hs
    obtain ⟨c, hc, he⟩ := h.whileLoop scope l test body flags m _ inner hf hturns
    exact ⟨c, .whileLoop hc, he⟩
  | forEach l vars iterable body =>
    exact h.forEachStmt scope l vars iterable body flags flags' m m' hf hs
  | breakLoop l =>
    simp only [execStmt, pure_eq_ok_iff] at hs
    obtain ⟨rfl, rfl⟩ := hs
    cases hl : flags.loop with
    | none => exact ⟨.normal, by simpa [Flags.inLoop, hl] using .breakOutside,
        flags.raiseBreak_of_none hl⟩
    | some c => exact ⟨.broke, by simpa [Flags.inLoop, hl] using .breakLoop, rfl⟩
  | continueLoop l =>
    simp only [execStmt, pure_eq_ok_iff] at hs
    obtain ⟨rfl, rfl⟩ := hs
    cases hl : flags.loop with
    | none => exact ⟨.normal, by simpa [Flags.inLoop, hl] using .continueOutside,
        flags.raiseContinue_of_none hl⟩
    | some c => exact ⟨.continued, by simpa [Flags.inLoop, hl] using .continueLoop, rfl⟩
  | returnValue l value =>
    simp only [execStmt, bind_eq_ok_iff, pure_eq_ok_iff] at hs
    obtain ⟨v, _, hv, rfl, rfl⟩ := hs
    exact ⟨.returned v, .returnValue (h.expr scope value m _ v hv), rfl⟩
  | function l name parameters body =>
    simp only [execStmt] at hs
    exact absurd hs (raise_ne_ok _ l m m' flags')
  | bare l =>
    simp only [execStmt] at hs
    exact absurd hs (raise_ne_ok _ l m m' flags')

end Statements

section Loops

private theorem turns_succ (h : Sound ctx fuel) (scope : ScopeId) (l : Location) (test : Expr)
    (body : List Stmt) (flags : Flags) (m m' : Machine) (flags' : Flags)
    (hf : flags.stops = false)
    (hr : repeatWhile ctx (fuel + 1) scope l test body flags.enterLoop m = .ok flags' m') :
    ∃ c, BigStep ctx m (.turns scope test body c) m' ∧
      flags'.leaveLoop flags = flags.signal c := by
  have hparts := hr
  simp only [repeatWhile, bind_eq_ok_iff, condition_eq_ok_iff] at hparts
  obtain ⟨_, _, hv, b, m₁, ⟨rfl, rfl⟩, hrest⟩ := hparts
  have ht := h.expr scope test m m₁ _ hv
  cases b with
  | false =>
    obtain ⟨rfl, rfl⟩ := (pure_eq_ok_iff _ _ _ _).mp hrest
    exact ⟨.normal, .turnsEnd ht, flags.leaveLoop_enterLoop⟩
  | true =>
    simp only [if_true, bind_eq_ok_iff] at hrest
    obtain ⟨flags₁, m₂, hturn, -⟩ := hrest
    obtain ⟨c, hc, rfl⟩ :=
      h.block scope [] body flags.enterLoop flags₁ m₁ m₂ (Flags.stops_enterLoop hf) hturn
    rw [repeatWhile_of_turn hf hv hturn] at hr
    cases c with
    | normal =>
      obtain ⟨k, hk, he⟩ := h.whileLoop scope l test body flags m₂ m' flags' hf hr
      exact ⟨k, .turnsNext ht hc (Or.inl rfl) hk, he⟩
    | continued =>
      obtain ⟨k, hk, he⟩ := h.whileLoop scope l test body flags m₂ m' flags' hf hr
      exact ⟨k, .turnsNext ht hc (Or.inr rfl) hk, he⟩
    | broke =>
      cases hr
      exact ⟨.normal, .turnsBreak ht hc, flags.leaveLoop_signal_broke⟩
    | returned v =>
      cases hr
      exact ⟨.returned v, .turnsReturn ht hc, flags.leaveLoop_signal_returned v⟩

private theorem visits_succ (h : Sound ctx fuel) (scope : ScopeId) (vars : LoopVars)
    (body : List Stmt) (walk : Walk) (flags : Flags) (m m' : Machine) (flags' : Flags)
    (hf : flags.stops = false)
    (hr : visitEach ctx (fuel + 1) scope vars body walk flags.enterLoop m = .ok flags' m') :
    ∃ c, BigStep ctx m (.visits scope vars body walk c) m' ∧
      flags'.leaveLoop flags = flags.signal c := by
  have hparts := hr
  rw [visitEach, bind_of_ok (inspect_run _ m)] at hparts
  cases hnext : walk.next m.heap with
  | mk visit walk' =>
    rw [hnext] at hparts
    cases visit with
    | finished =>
      obtain ⟨rfl, rfl⟩ := (pure_eq_ok_iff _ _ _ _).mp hparts
      exact ⟨.normal, .visitsEnd hnext, flags.leaveLoop_enterLoop⟩
    | invalidated cause => exact absurd hparts (raise_ne_ok _ _ _ m' flags')
    | entry key value =>
      simp only [bind_eq_ok_iff] at hparts
      obtain ⟨flags₁, m₁, hturn, -⟩ := hparts
      obtain ⟨c, hc, rfl⟩ :=
        h.block scope _ body flags.enterLoop flags₁ m m₁ (Flags.stops_enterLoop hf) hturn
      rw [visitEach_of_entry hf hnext hturn] at hr
      cases c with
      | normal =>
        obtain ⟨k, hk, he⟩ := h.forEach scope vars body walk' flags m₁ m' flags' hf hr
        exact ⟨k, .visitsNext hnext hc (Or.inl rfl) hk, he⟩
      | continued =>
        obtain ⟨k, hk, he⟩ := h.forEach scope vars body walk' flags m₁ m' flags' hf hr
        exact ⟨k, .visitsNext hnext hc (Or.inr rfl) hk, he⟩
      | broke =>
        cases hr
        exact ⟨.normal, .visitsBreak hnext hc, flags.leaveLoop_signal_broke⟩
      | returned v =>
        cases hr
        exact ⟨.returned v, .visitsReturn hnext hc, flags.leaveLoop_signal_returned v⟩

end Loops

private theorem call_succ (h : Sound ctx fuel) (name : Bytes) (arguments : List Value)
    (site : Token) (m m' : Machine) (v : Value)
    (hc : callFunction ctx (fuel + 1) name arguments site m = .ok v m') :
    BigStep ctx m (.call name arguments site v) m' := by
  simp only [callFunction, known_eq, pure_bind] at hc
  cases hf : ctx.functions[name]? with
  | some f =>
    rw [hf] at hc
    by_cases harity : arguments.length = f.parameters.length
    · simp only [harity, if_true, withFrame_eq_ok_iff, bind_eq_ok_iff, pure_eq_ok_iff] at hc
      obtain ⟨hroom, m₁, ⟨flags, _, hbody, rfl, rfl⟩, rfl⟩ := hc
      obtain ⟨c, hd, rfl⟩ := h.block .global _ f.body {} flags _ _ rfl hbody
      cases c with
      | normal => exact .callEnd hf harity hroom hd
      | returned v => exact .callReturn hf harity hroom hd
      | broke | continued => cases hd.fits
    · simp only [harity, if_false] at hc
      exact absurd hc (raise_ne_ok _ _ m m' v)
  | none =>
    rw [hf] at hc
    cases hb : ctx.builtins[name]? with
    | some b =>
      rw [hb] at hc
      simp only [withFrame_eq_ok_iff] at hc
      obtain ⟨hroom, m₁, hrun, rfl⟩ := hc
      exact .callBuiltin hf hb hroom (h.builtin b arguments site _ m₁ v hrun)
    | none =>
      rw [hb] at hc
      exact absurd hc (raise_ne_ok _ _ m m' v)

end Sound

/-- Whatever evaluation succeeds in can be derived. -/
theorem sound (ctx : Context) (fuel : Nat) : Sound ctx fuel := by
  induction fuel with
  | zero => exact Sound.zero ctx
  | succ fuel ih =>
    exact ⟨ih.expr_succ, ih.stmt_succ, ih.turns_succ, ih.visits_succ, ih.call_succ⟩

end Scriptlet
