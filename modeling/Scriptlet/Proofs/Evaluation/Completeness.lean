import Scriptlet.Proofs.Evaluation.Soundness

/-!
# Evaluation does what the rules allow

Whatever can be derived by the rules of completions is what evaluation comes to, with every
fuel that is large enough. The proof goes by induction on the derivation. Parts of a
derivation may need more or less fuel than others, so the claim about each of them is that it
holds from some fuel on.
-/

namespace Scriptlet

open Exec

/-- From some fuel on. -/
def Eventually (p : Nat → Prop) : Prop := ∃ n, ∀ fuel, n ≤ fuel → p fuel

namespace Eventually

variable {p q r : Nat → Prop}

private theorem of_forall (h : ∀ fuel, p fuel) : Eventually p := ⟨0, fun fuel _ ↦ h fuel⟩

private theorem imp (hp : Eventually p) (hpq : ∀ fuel, p fuel → q fuel) : Eventually q := by
  obtain ⟨n, hn⟩ := hp
  exact ⟨n, fun fuel hle ↦ hpq fuel (hn fuel hle)⟩

/-- Two things that hold eventually hold eventually together. -/
theorem and (hp : Eventually p) (hq : Eventually q) : Eventually fun fuel ↦ p fuel ∧ q fuel := by
  obtain ⟨n, hn⟩ := hp
  obtain ⟨k, hk⟩ := hq
  exact ⟨max n k, fun fuel hle ↦ ⟨hn fuel (by omega), hk fuel (by omega)⟩⟩

private theorem succ (hp : Eventually p) (hpq : ∀ fuel, p fuel → q (fuel + 1)) : Eventually q := by
  obtain ⟨n, hn⟩ := hp
  refine ⟨n + 1, fun fuel hle ↦ ?_⟩
  obtain ⟨fuel, rfl⟩ : ∃ k, fuel = k + 1 := ⟨fuel - 1, by omega⟩
  exact hpq fuel (hn fuel (by omega))

private theorem step (h : ∀ fuel, q (fuel + 1)) : Eventually q :=
  (of_forall fun _ ↦ trivial : Eventually fun _ ↦ True).succ fun fuel _ ↦ h fuel

end Eventually

/-- What a judgement about a run from `m` to `m'` means for evaluation with some fuel. -/
def Judgement.Holds (ctx : Context) (fuel : Nat) (m m' : Machine) : Judgement → Prop
  | expr scope e v => evalExpr ctx fuel scope e m = .ok v m'
  | exprs scope es vs => es.mapM (evalExpr ctx fuel scope) m = .ok vs m'
  | entries scope es pairs => ∀ l, es.mapM (entry (evalExpr ctx fuel scope) l) m = .ok pairs m'
  | stmt scope inLoop s c => ∀ flags, flags.stops = false → flags.inLoop = inLoop →
    execStmt ctx fuel scope s flags m = .ok (flags.signal c) m'
  | stmts scope inLoop ss c => ∀ flags, flags.stops = false → flags.inLoop = inLoop →
    runBody (execStmt ctx fuel scope) ss flags m = .ok (flags.signal c) m'
  | block parent bindings inLoop body c => ∀ flags, flags.stops = false → flags.inLoop = inLoop →
    runScoped parent bindings (execStmt ctx fuel) body flags m = .ok (flags.signal c) m'
  | turns scope test body c => ∀ l flags, flags.stops = false →
    ∃ inner, repeatWhile ctx fuel scope l test body flags.enterLoop m = .ok inner m' ∧
      inner.leaveLoop flags = flags.signal c
  | visits scope vars body walk c => ∀ flags, flags.stops = false →
    ∃ inner, visitEach ctx fuel scope vars body walk flags.enterLoop m = .ok inner m' ∧
      inner.leaveLoop flags = flags.signal c
  | call name arguments site v => callFunction ctx fuel name arguments site m = .ok v m'
  | builtin b arguments site v => b.run (ctx.services fuel) arguments site m = .ok v m'

namespace Judgement.Holds

variable {ctx : Context} {fuel : Nat} {m m₁ m₂ m₃ : Machine} {scope : ScopeId} {l lt : Location}

section Expressions

variable {e e₁ e₂ : Expr} {a b v : Value} {op : Bytes}

private theorem unary (he : (expr scope e a).Holds ctx fuel m m₁) (result : a.unary op = .ok v) :
    (expr scope (.unary l op e) v).Holds ctx (fuel + 1) m m₁ := by
  simp only [Holds, evalExpr]
  rw [bind_of_ok he]
  exact lift_of_ok result l m₁

private theorem binary (notAnd : op ≠ "&&") (notOr : op ≠ "||")
    (h₁ : (expr scope e₁ a).Holds ctx fuel m m₁) (h₂ : (expr scope e₂ b).Holds ctx fuel m₁ m₂)
    (result : m₂.heap.binary op a b = .ok v) :
    (expr scope (.binary l op e₁ e₂) v).Holds ctx (fuel + 1) m m₂ := by
  simp only [Holds, evalExpr]
  rw [bind_of_ok h₁, if_neg notAnd, if_neg notOr, bind_of_ok h₂, bind_of_ok (inspect_run _ m₂)]
  exact lift_of_ok result l m₂

private theorem andFalse (h₁ : (expr scope e₁ (.bool false)).Holds ctx fuel m m₁) :
    (expr scope (.binary l "&&" e₁ e₂) (.bool false)).Holds ctx (fuel + 1) m m₁ := by
  simp only [Holds, evalExpr]
  rw [bind_of_ok h₁]
  rfl

private theorem orTrue (h₁ : (expr scope e₁ (.bool true)).Holds ctx fuel m m₁) :
    (expr scope (.binary l "||" e₁ e₂) (.bool true)).Holds ctx (fuel + 1) m m₁ := by
  simp only [Holds, evalExpr]
  rw [bind_of_ok h₁]
  rfl

private theorem andTrue {b : Bool} (h₁ : (expr scope e₁ (.bool true)).Holds ctx fuel m m₁)
    (h₂ : (expr scope e₂ (.bool b)).Holds ctx fuel m₁ m₂) :
    (expr scope (.binary l "&&" e₁ e₂) (.bool b)).Holds ctx (fuel + 1) m m₂ := by
  simp only [Holds, evalExpr, if_true]
  rw [bind_of_ok h₁, bind_of_ok (condition_bool l true m₁), if_pos rfl, bind_of_ok h₂,
    bind_of_ok (condition_bool l b m₂)]
  rfl

private theorem orFalse {b : Bool} (h₁ : (expr scope e₁ (.bool false)).Holds ctx fuel m m₁)
    (h₂ : (expr scope e₂ (.bool b)).Holds ctx fuel m₁ m₂) :
    (expr scope (.binary l "||" e₁ e₂) (.bool b)).Holds ctx (fuel + 1) m m₂ := by
  have hne : ("||" : Bytes) ≠ "&&" := by decide
  simp only [Holds, evalExpr, if_true]
  rw [bind_of_ok h₁, if_neg hne, bind_of_ok (condition_bool l false m₁),
    if_neg Bool.false_ne_true, bind_of_ok h₂, bind_of_ok (condition_bool l b m₂)]
  rfl

private theorem index (h₁ : (expr scope e₁ a).Holds ctx fuel m m₁)
    (h₂ : (expr scope e₂ b).Holds ctx fuel m₁ m₂) (result : m₂.heap.read a b = .ok v) :
    (expr scope (.index l e₁ e₂) v).Holds ctx (fuel + 1) m m₂ := by
  simp only [Holds, evalExpr]
  rw [bind_of_ok h₁, bind_of_ok h₂, bind_of_ok (inspect_run _ m₂)]
  exact lift_of_ok result l m₂

private theorem array {es : List Expr} {vs : List Value}
    (h : (exprs scope es vs).Holds ctx fuel m m₁) (made : newArray vs m₁ = .ok v m₂) :
    (expr scope (.array l es) v).Holds ctx (fuel + 1) m m₂ := by
  simp only [Holds, evalExpr]
  rw [bind_of_ok h]
  exact made

private theorem dict {es : List (Expr × Expr)} {pairs : List (Key × Value)}
    (h : (entries scope es pairs).Holds ctx fuel m m₁)
    (made : newDict (pairs.foldl (fun d (k, v) ↦ d.set k v) {}) m₁ = .ok v m₂) :
    (expr scope (.dict l es) v).Holds ctx (fuel + 1) m m₂ := by
  simp only [Holds, evalExpr]
  rw [bind_of_ok (h l)]
  exact made

private theorem callExpr {receiver : Expr} {callee : Bytes} {es : List Expr} {vs : List Value}
    (h₁ : (exprs scope (receiver.operands es) vs).Holds ctx fuel m m₁)
    (h₂ : (call callee vs { location := l } v).Holds ctx fuel m₁ m₂) :
    (expr scope (.call l receiver callee es) v).Holds ctx (fuel + 1) m m₂ := by
  simp only [Holds, evalExpr]
  rw [bind_of_ok h₁]
  exact h₂

private theorem entriesCons {es : List (Expr × Expr)} {k : Key} {pairs : List (Key × Value)}
    (h₁ : (expr scope e₁ a).Holds ctx fuel m m₁) (isKey : dictKey a = .ok k)
    (h₂ : (expr scope e₂ v).Holds ctx fuel m₁ m₂)
    (h₃ : (entries scope es pairs).Holds ctx fuel m₂ m₃) :
    (entries scope ((e₁, e₂) :: es) ((k, v) :: pairs)).Holds ctx fuel m m₃ := by
  intro l
  refine (mapM_cons_eq_ok_iff _ _ _ _ _ _).mpr ⟨_, _, _, ?_, h₃ l, rfl⟩
  rw [entry, bind_of_ok h₁, bind_of_ok (lift_of_ok isKey _ _), bind_of_ok h₂]
  rfl

end Expressions

section Statements

variable {e e₁ e₂ e₃ : Expr} {a b c k v : Value} {op name : Bytes} {o : BinaryOp} {heap : Heap}
  {inLoop : Bool}

private theorem assign (plain : AssignOp.ofText? op = some .plain)
    (he : (expr scope e v).Holds ctx fuel m m₁) :
    (stmt scope inLoop (.assign l (.ident lt name) op e) .normal).Holds ctx (fuel + 1) m
      { m₁ with scopes := m₁.scopes.assign scope name v } := by
  intro flags hf hl
  simp only [execStmt, plain, if_true, AssignOp.combine]
  rw [bind_of_ok (pure_run Value.none m), bind_of_ok he, bind_of_ok (inspect_run _ m₁),
    bind_of_ok (lift_of_ok rfl l m₁)]
  rfl

private theorem update (compound : AssignOp.ofText? op = some (.compound o))
    (bound : m.scopes.lookup? scope name = some a) (he : (expr scope e b).Holds ctx fuel m m₁)
    (result : m₁.heap.binary o.text a b = .ok v) :
    (stmt scope inLoop (.assign l (.ident lt name) op e) .normal).Holds ctx (fuel + 1) m
      { m₁ with scopes := m₁.scopes.assign scope name v } := by
  intro flags hf hl
  have hlookup : lookup scope name lt m = .ok a m := by
    rw [lookup_eq_ok_iff]
    exact ⟨bound, rfl⟩
  simp only [execStmt, compound, reduceCtorEq, if_false, AssignOp.combine]
  rw [bind_of_ok hlookup, bind_of_ok he, bind_of_ok (inspect_run _ m₁),
    bind_of_ok (lift_of_ok result l m₁)]
  rfl

private theorem write (plain : AssignOp.ofText? op = some .plain)
    (h₁ : (expr scope e₁ c).Holds ctx fuel m m₁) (h₂ : (expr scope e₂ k).Holds ctx fuel m₁ m₂)
    (h₃ : (expr scope e₃ v).Holds ctx fuel m₂ m₃) (container : c.isContainer = true)
    (written : m₃.heap.write c k v = .ok heap) :
    (stmt scope inLoop (.assign l (.index lt e₁ e₂) op e₃) .normal).Holds ctx (fuel + 1) m
      { m₃ with heap } := by
  intro flags hf hl
  simp only [execStmt, plain, if_true, AssignOp.combine]
  rw [bind_of_ok h₁, bind_of_ok h₂, bind_of_ok h₃, if_pos container,
    bind_of_ok (pure_run Value.none m₃), bind_of_ok (inspect_run _ m₃),
    bind_of_ok (lift_of_ok rfl l m₃), bind_of_ok (inspect_run _ m₃),
    bind_of_ok (lift_of_ok written lt m₃)]
  rfl

private theorem writeUpdate (compound : AssignOp.ofText? op = some (.compound o))
    (h₁ : (expr scope e₁ c).Holds ctx fuel m m₁) (h₂ : (expr scope e₂ k).Holds ctx fuel m₁ m₂)
    (h₃ : (expr scope e₃ b).Holds ctx fuel m₂ m₃) (container : c.isContainer = true)
    (current : m₃.heap.read c k = .ok a) (result : m₃.heap.binary o.text a b = .ok v)
    (written : m₃.heap.write c k v = .ok heap) :
    (stmt scope inLoop (.assign l (.index lt e₁ e₂) op e₃) .normal).Holds ctx (fuel + 1) m
      { m₃ with heap } := by
  intro flags hf hl
  simp only [execStmt, compound, reduceCtorEq, if_false, AssignOp.combine]
  rw [bind_of_ok h₁, bind_of_ok h₂, bind_of_ok h₃, if_pos container,
    bind_of_ok (inspect_run _ m₃), bind_of_ok (lift_of_ok current lt m₃),
    bind_of_ok (inspect_run _ m₃), bind_of_ok (lift_of_ok result l m₃),
    bind_of_ok (inspect_run _ m₃), bind_of_ok (lift_of_ok written lt m₃)]
  rfl

private theorem print {es : List Expr} {vs : List Value} {f : Builtin}
    (h₁ : (exprs scope es vs).Holds ctx fuel m m₁)
    (offered : ctx.builtins[Builtin.print.name]? = some f)
    (h₂ : (builtin f vs { location := l } v).Holds ctx fuel m₁ m₂) :
    (stmt scope inLoop (.print l es) .normal).Holds ctx (fuel + 1) m m₂ := by
  intro flags hf hl
  simp only [execStmt, known_eq, pure_bind, offered]
  rw [bind_of_ok h₁]
  exact bind_of_ok h₂ _

private theorem ifTrue {body : List Stmt} {c : Completion}
    (h₁ : (expr scope e (.bool true)).Holds ctx fuel m m₁)
    (h₂ : (Judgement.block scope [] inLoop body c).Holds ctx fuel m₁ m₂) :
    (stmt scope inLoop (.ifThen l e body) c).Holds ctx (fuel + 1) m m₂ := by
  intro flags hf hl
  simp only [execStmt]
  rw [bind_of_ok h₁]
  exact h₂ flags hf hl

private theorem ifElse {test : Bool} {body otherwise : List Stmt} {c : Completion}
    (h₁ : (expr scope e (.bool test)).Holds ctx fuel m m₁)
    (h₂ : (Judgement.block scope [] inLoop (if test then body else otherwise) c).Holds ctx fuel
      m₁ m₂) : (stmt scope inLoop (.ifElse l e body otherwise) c).Holds ctx (fuel + 1) m m₂ := by
  intro flags hf hl
  simp only [execStmt]
  rw [bind_of_ok h₁, bind_of_ok (condition_bool l test m₁)]
  cases test <;> exact h₂ flags hf hl

private theorem whileLoop {body : List Stmt} {c : Completion}
    (h : (turns scope e body c).Holds ctx fuel m m₁) :
    (stmt scope inLoop (.whileLoop l e body) c).Holds ctx (fuel + 1) m m₁ := by
  intro flags hf hl
  obtain ⟨inner, hturns, hleave⟩ := h l flags hf
  simp only [execStmt]
  rw [bind_of_ok hturns, hleave]
  rfl

private theorem forEach {vars : LoopVars} {walk : Walk} {body : List Stmt} {c : Completion}
    (he : (expr scope e v).Holds ctx fuel m m₁)
    (fits : ∀ key value, vars = .pair key value → v.type = .dictionary)
    (start : Walk.start m₁.heap v l = .ok walk)
    (h₂ : (visits scope vars body walk c).Holds ctx fuel m₁ m₂) :
    (stmt scope inLoop (.forEach l vars e body) c).Holds ctx (fuel + 1) m m₂ := by
  intro flags hf hl
  obtain ⟨inner, hvisits, hleave⟩ := h₂ flags hf
  simp only [execStmt]
  rw [bind_of_ok he]
  cases vars with
  | single name =>
    simp only
    rw [bind_of_ok (inspect_run _ m₁), start]
    simp only
    rw [bind_of_ok hvisits, hleave]
    rfl
  | pair keyName valueName =>
    rw [fits keyName valueName rfl]
    simp only
    rw [bind_of_ok (inspect_run _ m₁), start]
    simp only
    rw [bind_of_ok hvisits, hleave]
    rfl

private theorem breakOutside :
    (stmt scope false (.breakLoop l) .normal).Holds ctx (fuel + 1) m m := by
  intro flags hf hl
  have hnone : flags.loop = none := Option.isNone_iff_eq_none.mp (Option.isSome_eq_false_iff.mp hl)
  simp only [execStmt]
  rw [flags.raiseBreak_of_none hnone]
  rfl

private theorem continueOutside :
    (stmt scope false (.continueLoop l) .normal).Holds ctx (fuel + 1) m m := by
  intro flags hf hl
  have hnone : flags.loop = none := Option.isNone_iff_eq_none.mp (Option.isSome_eq_false_iff.mp hl)
  simp only [execStmt]
  rw [flags.raiseContinue_of_none hnone]
  rfl

end Statements

section Lists

variable {s : Stmt} {ss : List Stmt} {inLoop : Bool} {c : Completion}

private theorem next (h₁ : (stmt scope inLoop s .normal).Holds ctx fuel m m₁)
    (h₂ : (stmts scope inLoop ss c).Holds ctx fuel m₁ m₂) :
    (stmts scope inLoop (s :: ss) c).Holds ctx fuel m m₂ := by
  intro flags hf hl
  have hs : (flags.signal .normal).stops = false := hf
  rw [runBody, bind_of_ok (h₁ flags hf hl), hs, if_neg Bool.false_ne_true]
  exact h₂ flags hf hl

private theorem stop (h₁ : (stmt scope inLoop s c).Holds ctx fuel m m₁) (fits : c.Fits inLoop)
    (abrupt : c ≠ .normal) : (stmts scope inLoop (s :: ss) c).Holds ctx fuel m m₁ := by
  intro flags hf hl
  subst hl
  have hs := Flags.stops_signal hf fits
  rw [decide_eq_true abrupt] at hs
  rw [runBody, bind_of_ok (h₁ flags hf rfl), hs, if_pos rfl]
  rfl

private theorem block {parent : ScopeId} {bs : List (Bytes × Value)}
    (h : (stmts (m.scopes.enter (some parent)).1 inLoop ss c).Holds ctx fuel
      { m with
        scopes := (m.scopes.enter (some parent)).2.bindAll (m.scopes.enter (some parent)).1 bs }
      m₁) :
    (Judgement.block parent bs inLoop ss c).Holds ctx fuel m
      { m₁ with scopes := m₁.scopes.leave (m.scopes.enter (some parent)).1 } := by
  intro flags hf hl
  rw [runScoped, withScope_eq_ok_iff]
  refine ⟨m₁, ?_, rfl⟩
  exact h flags hf hl

end Lists

section Loops

variable {test : Expr} {body : List Stmt} {vars : LoopVars} {walk walk' : Walk}
  {key value v : Value} {c k : Completion}

private theorem turnsEnd (h : (expr scope test (.bool false)).Holds ctx fuel m m₁) :
    (turns scope test body .normal).Holds ctx (fuel + 1) m m₁ := by
  intro l flags hf
  refine ⟨flags.enterLoop, ?_, flags.leaveLoop_enterLoop⟩
  rw [repeatWhile, bind_of_ok h]
  rfl

private theorem turnsBreak (h₁ : (expr scope test (.bool true)).Holds ctx fuel m m₁)
    (h₂ : (Judgement.block scope [] true body .broke).Holds ctx fuel m₁ m₂) :
    (turns scope test body .normal).Holds ctx (fuel + 1) m m₂ := fun l flags hf ↦
  ⟨_, repeatWhile_of_turn hf h₁ (h₂ _ (Flags.stops_enterLoop hf) rfl) l,
    flags.leaveLoop_signal_broke⟩

private theorem turnsReturn (h₁ : (expr scope test (.bool true)).Holds ctx fuel m m₁)
    (h₂ : (Judgement.block scope [] true body (.returned v)).Holds ctx fuel m₁ m₂) :
    (turns scope test body (.returned v)).Holds ctx (fuel + 1) m m₂ := fun l flags hf ↦
  ⟨_, repeatWhile_of_turn hf h₁ (h₂ _ (Flags.stops_enterLoop hf) rfl) l,
    flags.leaveLoop_signal_returned v⟩

private theorem turnsNext (h₁ : (expr scope test (.bool true)).Holds ctx fuel m m₁)
    (h₂ : (Judgement.block scope [] true body c).Holds ctx fuel m₁ m₂)
    (goes : c = .normal ∨ c = .continued) (h₃ : (turns scope test body k).Holds ctx fuel m₂ m₃) :
    (turns scope test body k).Holds ctx (fuel + 1) m m₃ := by
  intro l flags hf
  rw [repeatWhile_of_turn hf h₁ (h₂ _ (Flags.stops_enterLoop hf) rfl), if_pos goes]
  exact h₃ l flags hf

private theorem visitsEnd (finished : walk.next m.heap = (.finished, walk')) :
    (visits scope vars body walk .normal).Holds ctx (fuel + 1) m m := by
  intro flags hf
  refine ⟨flags.enterLoop, ?_, flags.leaveLoop_enterLoop⟩
  rw [visitEach, bind_of_ok (inspect_run _ _), finished]
  rfl

private theorem visitsBreak (entry : walk.next m.heap = (.entry key value, walk'))
    (h : (Judgement.block scope (vars.bindings walk'.overDict key value) true body .broke).Holds
      ctx fuel m m₁) : (visits scope vars body walk .normal).Holds ctx (fuel + 1) m m₁ :=
  fun flags hf ↦ ⟨_, visitEach_of_entry hf entry (h _ (Flags.stops_enterLoop hf) rfl),
    flags.leaveLoop_signal_broke⟩

private theorem visitsReturn (entry : walk.next m.heap = (.entry key value, walk'))
    (h : (Judgement.block scope (vars.bindings walk'.overDict key value) true body
      (.returned v)).Holds ctx fuel m m₁) :
    (visits scope vars body walk (.returned v)).Holds ctx (fuel + 1) m m₁ :=
  fun flags hf ↦ ⟨_, visitEach_of_entry hf entry (h _ (Flags.stops_enterLoop hf) rfl),
    flags.leaveLoop_signal_returned v⟩

private theorem visitsNext (entry : walk.next m.heap = (.entry key value, walk'))
    (h : (Judgement.block scope (vars.bindings walk'.overDict key value) true body c).Holds ctx
      fuel m m₁) (goes : c = .normal ∨ c = .continued)
    (hrest : (visits scope vars body walk' k).Holds ctx fuel m₁ m₂) :
    (visits scope vars body walk k).Holds ctx (fuel + 1) m m₂ := by
  intro flags hf
  rw [visitEach_of_entry hf entry (h _ (Flags.stops_enterLoop hf) rfl), if_pos goes]
  exact hrest flags hf

end Loops

section Calls

variable {name : Bytes} {vs : List Value} {site : Token} {f : Function} {v : Value}

private theorem callScript {c : Completion} (defined : ctx.functions[name]? = some f)
    (arity : vs.length = f.parameters.length) (room : m.depth < ctx.maxDepth)
    (h : (Judgement.block .global (f.parameters.zip vs) false f.body c).Holds ctx fuel
      { m with depth := m.depth + 1 } m₁) :
    (Judgement.call name vs site (({} : Flags).signal c).returnValue).Holds ctx (fuel + 1) m
      { m₁ with depth := m₁.depth - 1 } := by
  simp only [Holds, callFunction, known_eq, pure_bind, defined, arity, if_true]
  rw [withFrame_eq_ok_iff]
  refine ⟨room, m₁, ?_, rfl⟩
  rw [bind_of_ok (h {} rfl rfl)]
  rfl

private theorem callBuiltin {b : Builtin} (undefined : ctx.functions[name]? = none)
    (offered : ctx.builtins[name]? = some b) (room : m.depth < ctx.maxDepth)
    (h : (Judgement.builtin b vs site v).Holds ctx fuel { m with depth := m.depth + 1 } m₁) :
    (Judgement.call name vs site v).Holds ctx (fuel + 1) m
      { m₁ with depth := m₁.depth - 1 } := by
  simp only [Holds, callFunction, known_eq, pure_bind, undefined, offered]
  rw [withFrame_eq_ok_iff]
  exact ⟨room, m₁, h, rfl⟩

private theorem forward {callee : Bytes} (logged : Builtin.logCall name vs site m = .ok () m₁)
    (h : (Judgement.call callee vs site v).Holds ctx fuel m₁ m₂) :
    (Judgement.builtin (.host name (.call callee)) vs site v).Holds ctx fuel m m₂ := by
  simp only [Holds, Builtin.run_host, Builtin.runHost]
  rw [bind_of_ok logged]
  exact h

end Calls

end Judgement.Holds

/-- What can be derived is what evaluation comes to from some fuel on. -/
theorem BigStep.complete {ctx : Context} {m m' : Machine} {j : Judgement}
    (h : BigStep ctx m j m') : Eventually fun fuel ↦ j.Holds ctx fuel m m' := by
  induction h with
  -- Expressions
  | absent | int | str | bool | none =>
    apply Eventually.step
    intro fuel
    simp only [Judgement.Holds, evalExpr]
    rfl
  | ident bound =>
    apply Eventually.step
    intro fuel
    simp only [Judgement.Holds, evalExpr, lookup_eq_ok_iff, and_true]
    exact bound
  | unary _ result ih => exact ih.succ fun _ he ↦ .unary he result
  | binary notAnd notOr _ _ result ih₁ ih₂ =>
    exact (ih₁.and ih₂).succ fun _ he ↦ .binary notAnd notOr he.1 he.2 result
  | andFalse _ ih => exact ih.succ fun _ he ↦ .andFalse he
  | orTrue _ ih => exact ih.succ fun _ he ↦ .orTrue he
  | andTrue _ _ ih₁ ih₂ => exact (ih₁.and ih₂).succ fun _ he ↦ .andTrue he.1 he.2
  | orFalse _ _ ih₁ ih₂ => exact (ih₁.and ih₂).succ fun _ he ↦ .orFalse he.1 he.2
  | index _ _ result ih₁ ih₂ => exact (ih₁.and ih₂).succ fun _ he ↦ .index he.1 he.2 result
  | array _ made ih => exact ih.succ fun _ he ↦ .array he made
  | dict _ made ih => exact ih.succ fun _ he ↦ .dict he made
  | call _ _ ih₁ ih₂ => exact (ih₁.and ih₂).succ fun _ he ↦ .callExpr he.1 he.2
  | exprsNil => exact .of_forall fun _ ↦ (mapM_nil_eq_ok_iff _ _ _ _).mpr ⟨rfl, rfl⟩
  | exprsCons _ _ ih₁ ih₂ =>
    exact (ih₁.and ih₂).imp fun _ he ↦
      (mapM_cons_eq_ok_iff _ _ _ _ _ _).mpr ⟨_, _, _, he.1, he.2, rfl⟩
  | entriesNil => exact .of_forall fun _ _ ↦ (mapM_nil_eq_ok_iff _ _ _ _).mpr ⟨rfl, rfl⟩
  | entriesCons _ isKey _ _ ih₁ ih₂ ih₃ =>
    exact ((ih₁.and ih₂).and ih₃).imp fun _ he ↦ .entriesCons he.1.1 isKey he.1.2 he.2
  -- Statements
  | absentStmt | breakLoop | continueLoop =>
    apply Eventually.step
    intro fuel flags hf hl
    simp only [execStmt]
    rfl
  | declare _ ih | returnValue _ ih | evaluate _ ih | ifFalse _ ih =>
    apply ih.succ
    intro fuel he flags hf hl
    simp only [execStmt]
    rw [bind_of_ok he]
    rfl
  | assign plain _ ih => exact ih.succ fun _ he ↦ .assign plain he
  | update compound bound _ result ih =>
    exact ih.succ fun _ he ↦ .update compound bound he result
  | write plain _ _ _ container written ih₁ ih₂ ih₃ =>
    exact ((ih₁.and ih₂).and ih₃).succ fun _ he ↦
      .write plain he.1.1 he.1.2 he.2 container written
  | writeUpdate compound _ _ _ container current result written ih₁ ih₂ ih₃ =>
    exact ((ih₁.and ih₂).and ih₃).succ fun _ he ↦
      .writeUpdate compound he.1.1 he.1.2 he.2 container current result written
  | print _ offered _ ih₁ ih₂ => exact (ih₁.and ih₂).succ fun _ he ↦ .print he.1 offered he.2
  | ifTrue _ _ ih₁ ih₂ => exact (ih₁.and ih₂).succ fun _ he ↦ .ifTrue he.1 he.2
  | elseTrue _ _ ih₁ ih₂ | elseFalse _ _ ih₁ ih₂ =>
    exact (ih₁.and ih₂).succ fun _ he ↦ .ifElse he.1 he.2
  | whileLoop _ ih => exact ih.succ fun _ he ↦ .whileLoop he
  | forEach _ fits start _ ih₁ ih₂ =>
    exact (ih₁.and ih₂).succ fun _ he ↦ .forEach he.1 fits start he.2
  | breakOutside => exact .step fun _ ↦ .breakOutside
  | continueOutside => exact .step fun _ ↦ .continueOutside
  -- Lists of statements
  | nil => exact .of_forall fun _ _ _ _ ↦ rfl
  | next _ _ ih₁ ih₂ => exact (ih₁.and ih₂).imp fun _ he ↦ .next he.1 he.2
  | stop first abrupt ih => exact ih.imp fun _ he ↦ .stop he first.fits abrupt
  | block _ ih => exact ih.imp fun _ he ↦ .block he
  -- Loops
  | turnsEnd _ ih => exact ih.succ fun _ he ↦ .turnsEnd he
  | turnsBreak _ _ ih₁ ih₂ => exact (ih₁.and ih₂).succ fun _ he ↦ .turnsBreak he.1 he.2
  | turnsReturn _ _ ih₁ ih₂ => exact (ih₁.and ih₂).succ fun _ he ↦ .turnsReturn he.1 he.2
  | turnsNext _ _ goes _ ih₁ ih₂ ih₃ =>
    exact ((ih₁.and ih₂).and ih₃).succ fun _ he ↦ .turnsNext he.1.1 he.1.2 goes he.2
  | visitsEnd finished => exact .step fun _ ↦ .visitsEnd finished
  | visitsBreak entry _ ih => exact ih.succ fun _ he ↦ .visitsBreak entry he
  | visitsReturn entry _ ih => exact ih.succ fun _ he ↦ .visitsReturn entry he
  | visitsNext entry _ goes _ ih₁ ih₂ =>
    exact (ih₁.and ih₂).succ fun _ he ↦ .visitsNext entry he.1 goes he.2
  -- Calls
  | callReturn defined arity room _ ih | callEnd defined arity room _ ih =>
    exact ih.succ fun _ he ↦ .callScript defined arity room he
  | callBuiltin undefined offered room _ ih =>
    exact ih.succ fun _ he ↦ .callBuiltin undefined offered room he
  | answer result => exact .of_forall fun _ ↦ result _
  | forward logged _ ih => exact ih.imp fun _ he ↦ .forward logged he

end Scriptlet
