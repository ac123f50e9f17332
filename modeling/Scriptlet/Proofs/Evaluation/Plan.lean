import Scriptlet.Evaluation.Evaluator

/-!
# Evaluation piece by piece

A plan lays out what an evaluation does before any of it is done: pieces that are carried out
on the machine as a whole, parts to evaluate, functions to call, one after the other. Every
part has its plan, and so has every function that a call is resolved to. Carrying a plan out
is evaluating (`Task.run_succ`, `callFunction_succ`), so what a run passes through can be read
off the plans.
-/

namespace Scriptlet

variable [Host]

namespace Exec

/-- Something that depends on the heap, and may fail. -/
def consult {α : Type} (f : Heap → Except ScriptError α) : Exec α := fun m ↦
  match f m.heap with
  | .ok a => .ok a m
  | .error e => .error (.error e) m

/-- What an operation gives on the heap as it is; its failure becomes an error at a place. -/
def operate {α : Type} (l : Location) (f : Heap → Except Cause α) : Exec α :=
  inspect f >>= lift l

end Exec

/-- The next visit of a walk and the walk after it; nothing at the end. -/
def Walk.visit? (w : Walk) (h : Heap) : Except ScriptError (Option (Value × Value × Walk)) :=
  match w.next h with
  | (.finished, _) => .ok none
  | (.invalidated cause, _) => .error { cause, location := w.location }
  | (.entry key value, w) => .ok (some (key, value, w))

open Exec

/-- Something to evaluate, for a result: an expression, a statement, what is left of a loop or of
a host function. -/
inductive Task : Type → Type where
  | expr (scope : ScopeId) (e : Expr) : Task Value
  | stmt (scope : ScopeId) (s : Stmt) (flags : Flags) : Task Flags
  | turns (scope : ScopeId) (l : Location) (c : Expr) (body : List Stmt) (flags : Flags) :
      Task Flags
  | visits (scope : ScopeId) (vars : LoopVars) (body : List Stmt) (walk : Walk) (flags : Flags) :
      Task Flags
  | resume (t : Host.Thread) : Task Value

/-- Evaluates a task. -/
def Task.run (ctx : Context) (fuel : Nat) {α : Type} : Task α → Exec α
  | .expr scope e => evalExpr ctx fuel scope e
  | .stmt scope s flags => execStmt ctx fuel scope s flags
  | .turns scope l c body flags => repeatWhile ctx fuel scope l c body flags
  | .visits scope vars body walk flags => visitEach ctx fuel scope vars body walk flags
  | .resume t => resumeThread ctx fuel t

/-- What is to be done, in order. -/
inductive Plan : Type → Type 1 where
  /-- Something that is carried out as a whole: it evaluates no part and calls nothing. -/
  | piece {α : Type} (x : Exec α) : Plan α
  | task {α : Type} (t : Task α) : Plan α
  | call (name : Bytes) (arguments : List Value) (site : Token) : Plan Value
  | bind {α β : Type} (p : Plan α) (rest : α → Plan β) : Plan β
  /-- Something to do in a scope of its own inside `parent`. -/
  | inScope {α : Type} (parent : ScopeId) (body : ScopeId → Plan α) : Plan α
  /-- Something whose error is caught. -/
  | attempt {α : Type} (p : Plan α) : Plan (Except ScriptError α)

namespace Plan

instance : Monad Plan where
  pure a := .piece (pure a)
  bind := .bind

/-- Carries a plan out; its tasks and calls are given `fuel`. -/
def run (ctx : Context) (fuel : Nat) {α : Type} : Plan α → Exec α
  | .piece x => x
  | .task t => t.run ctx fuel
  | .call name arguments site => callFunction ctx fuel name arguments site
  | .bind p rest => p.run ctx fuel >>= fun a ↦ (rest a).run ctx fuel
  | .inScope parent body => withScope parent fun inner ↦ (body inner).run ctx fuel
  | .attempt p => Exec.attempt (p.run ctx fuel)

/-- The value of an expression. -/
def eval (scope : ScopeId) (e : Expr) : Plan Value := .task (.expr scope e)

/-- One thing after the other for every element of a list. -/
def each {α β : Type} (p : α → Plan β) : List α → Plan (List β)
  | [] => pure []
  | a :: as => do
    let b ← p a
    let bs ← each p as
    pure (b :: bs)

/-- An entry of a dictionary at `l`. -/
def entry (scope : ScopeId) (l : Location) : Expr × Expr → Plan (Key × Value)
  | (key, value) => do
    let k ← eval scope key
    let k ← piece (lift (if key.isPresent then key.location else l) (dictKey k))
    let v ← eval scope value
    pure (k, v)

/-- Statements until a flag is up. -/
def body (scope : ScopeId) : List Stmt → Flags → Plan Flags
  | [], flags => pure flags
  | s :: ss, flags => do
    let flags ← task (.stmt scope s flags)
    if flags.stops then pure flags else body scope ss flags

/-- Statements in a scope of their own inside `parent`, where some names are bound. -/
def block (parent : ScopeId) (bindings : List (Bytes × Value)) (statements : List Stmt)
    (flags : Flags) : Plan Flags :=
  .inScope parent fun inner ↦ do
    piece (bindAll inner bindings)
    body inner statements flags

/-- A property of plans that a sequence has if its parts have it. -/
structure Sequential (Q : {α : Type} → Plan α → Prop) : Prop where
  pure {α : Type} (a : α) : Q (pure a : Plan α)
  bind {α β : Type} {p : Plan α} {rest : α → Plan β} (hp : Q p) (hrest : ∀ a, Q (rest a)) :
    Q (p >>= rest)

namespace Sequential

variable {Q : {α : Type} → Plan α → Prop} (hQ : Sequential Q) {α β : Type}
include hQ

/-- Something done for every element of a list has the property if it has it for each. -/
theorem each {p : α → Plan β} {as : List α} (hp : ∀ a ∈ as, Q (p a)) : Q (Plan.each p as) := by
  induction as with
  | nil => exact hQ.pure []
  | cons a as ih =>
    refine hQ.bind (hp a List.mem_cons_self) fun b ↦ ?_
    exact hQ.bind (ih fun a ha ↦ hp a (List.mem_cons_of_mem _ ha)) fun bs ↦ hQ.pure (b :: bs)

/-- Statements have the property if each of them has it. -/
theorem body {scope : ScopeId} {ss : List Stmt} {flags : Flags}
    (hss : ∀ s ∈ ss, ∀ flags, Q (task (.stmt scope s flags))) :
    Q (Plan.body scope ss flags) := by
  induction ss generalizing flags with
  | nil => exact hQ.pure flags
  | cons s ss ih =>
    refine hQ.bind (hss s List.mem_cons_self flags) fun flags ↦ ?_
    split
    · exact hQ.pure flags
    · exact ih fun s hs ↦ hss s (List.mem_cons_of_mem _ hs)

end Sequential
end Plan

open Plan

/-- The functions of a program, then its other statements, as a host function loads it. -/
def Plan.load (p : Program) (allowed : Host.teaches (.program p)) : Plan Unit := do
  piece (teach ⟨.program p, allowed⟩)
  let _ ← body .global p.topLevel {}
  pure ()

/-- What a request does. -/
def Request.plan (ctx : Context) : Request Host.teaches → Plan Value
  | .invoke name arguments site => call name arguments site
  | .evaluate e => eval .global e
  | .load p allowed => do
    Plan.load p allowed
    pure .none
  | .run p allowed main => do
    Plan.load p allowed
    let now ← piece (known ctx)
    if now.functions.contains main then call main [] ⟨main, p.location⟩ else pure .none

/-- What a host function does. -/
def Procedure.plan (ctx : Context) : Host.Script → Plan Value
  | .answer v => pure v
  | .fail e => piece (throw (.error e))
  | .look next => do
    let v ← piece (Exec.look ctx)
    (next v).plan ctx
  | .act deed next => do
    piece (Exec.act ctx deed)
    next.plan ctx
  | .register name r allowed next => do
    piece (teach ⟨.routine name r, allowed⟩)
    next.plan ctx
  | .ask request next => do
    let answer ← Plan.attempt (request.plan ctx)
    (next answer).plan ctx
  | .handOver name arguments site => call name arguments site
  | .proceed t => task (.resume t)

/-- What a built-in function does. Only a host function may go on to call another function. -/
def Builtin.plan (ctx : Context) (arguments : List Value) (site : Token) : Builtin → Plan Value
  | .print => piece (reply site (respondPrint arguments))
  | .len => piece (reply site (respondLen arguments))
  | .abs => piece (reply site (respondAbs arguments))
  | .contains => piece (reply site (respondContains arguments))
  | .remove => piece (reply site (respondRemove arguments))
  | .push => piece (reply site (respondPush arguments))
  | .keys => piece (reply site (respondKeys arguments))
  | .type => piece (reply site (respondType arguments))
  | .host name routine => (Host.serve routine name arguments site).plan ctx

/-- A function of the language is carried out as a whole. -/
theorem Builtin.Native.plan_eq {b : Builtin} {arguments : List Value}
    {respond : Heap → Except Cause Response} (h : Native arguments b respond) (ctx : Context)
    (site : Token) : b.plan ctx arguments site = piece (reply site respond) := by
  cases h <;> rfl

/-- What a function of the script does. -/
def Function.plan (arguments : List Value) (f : Function) : Plan Value := do
  let flags ← block .global (f.parameters.zip arguments) f.body {}
  pure flags.returnValue

/-- What a call is resolved to: a name for the new frame, and what is done in it. -/
structure Callee where
  label : Bytes
  body : Plan Value

/-- Finds out what is called after some lessons: a function of the script, if the number of
arguments fits, else a built-in function. -/
def Context.resolve (ctx : Context) (name : Bytes) (arguments : List Value) (site : Token)
    (lessons : List Host.Teaching := []) : Except Cause Callee :=
  match (ctx.after lessons).functions[name]? with
  | some f =>
    if arguments.length = f.parameters.length then .ok ⟨f.name, f.plan arguments⟩
    else .error (.functionArity f.name f.parameters.length arguments.length)
  | none =>
    match (ctx.after lessons).builtins[name]? with
    | some b => .ok ⟨name, b.plan ctx arguments site⟩
    | none => .error (.undefinedFunction name)

namespace Expr

/-- What the evaluation of an expression does. -/
def plan (scope : ScopeId) (e : Expr) : Plan Value :=
  match e with
  | .absent => pure .none
  | .int _ n => pure (.int n)
  | .str _ s => pure (.str s)
  | .bool _ b => pure (.bool b)
  | .none _ => pure .none
  | .ident l name => piece (lookup scope name l)
  | .unary l op operand => do
    let v ← eval scope operand
    piece (lift l (v.unary op))
  | .binary l op left right => do
    let a ← eval scope left
    if op = "&&" then
      if ← piece (condition l a) then
        return .bool (← piece (condition l (← eval scope right)))
      else return .bool false
    else if op = "||" then
      if ← piece (condition l a) then return .bool true
      else return .bool (← piece (condition l (← eval scope right)))
    else
      let b ← eval scope right
      piece (operate l (·.binary op a b))
  | .index l object key => do
    let container ← eval scope object
    let k ← eval scope key
    piece (operate l (·.read container k))
  | .array _ elements => do
    piece (newArray (← each (eval scope) elements))
  | .dict l entries => do
    let pairs ← each (entry scope l) entries
    piece (newDict (pairs.foldl (fun d (k, v) ↦ d.set k v) {}))
  | .call l receiver callee arguments => do
    let vs ← each (eval scope) (receiver.operands arguments)
    Plan.call callee vs { location := l }
  | .bare l => piece (raise (.unsupportedExpression e.text) l)

end Expr

namespace Stmt

/-- What an assignment does whose operator is known. -/
def assignPlan (scope : ScopeId) (l : Location) (target : Expr) (op : AssignOp) (value : Expr)
    (flags : Flags) : Plan Flags :=
  match target with
  | .ident lt name => do
    let current ← if op = .plain then pure .none else piece (lookup scope name lt)
    let new ← eval scope value
    let v ← piece (operate l fun h ↦ op.combine h current new)
    piece (Exec.assign scope name v)
    pure flags
  | .index lt object key => do
    let container ← eval scope object
    let k ← eval scope key
    let new ← eval scope value
    if container.isContainer then
      let current ←
        if op = .plain then pure .none
        else piece (operate lt (·.read container k))
      let v ← piece (operate l fun h ↦ op.combine h current new)
      let heap ← piece (operate lt (·.write container k v))
      piece (modifyHeap fun _ ↦ heap)
      pure flags
    else piece (raise (.notIndexAssignable container.type) lt)
  | target => piece (raise (.notAssignable target.text) l)

/-- What the execution of a statement does. -/
def plan (ctx : Context) (scope : ScopeId) (s : Stmt) (flags : Flags) : Plan Flags :=
  match s with
  | .absent => pure flags
  | .declare _ name value => do
    piece (Exec.declare scope name (← eval scope value))
    pure flags
  | .assign l target op value =>
    match AssignOp.ofText? op with
    | none => piece (raise (.unknownAssignment op) l)
    | some op => assignPlan scope l target op value flags
  | .print l arguments => do
    let vs ← each (eval scope) arguments
    let now ← piece (known ctx)
    match now.builtins[Builtin.print.name]? with
    | some b =>
      let _ ← b.plan ctx vs { location := l }
      pure flags
    | none => piece (raise .printUnavailable l)
  | .evaluate _ e => do
    let _ ← eval scope e
    pure flags
  | .ifThen l c statements => do
    if ← piece (condition l (← eval scope c)) then block scope [] statements flags
    else pure flags
  | .ifElse l c statements otherwise => do
    if ← piece (condition l (← eval scope c)) then block scope [] statements flags
    else block scope [] otherwise flags
  | .whileLoop l c statements => do
    let inner ← task (.turns scope l c statements flags.enterLoop)
    pure (inner.leaveLoop flags)
  | .forEach l vars iterable statements => do
    let v ← eval scope iterable
    match vars, v.type with
    | .single _, _ | .pair _ _, .dictionary =>
      let walk ← piece (consult fun h ↦ Walk.start h v l)
      let inner ← task (.visits scope vars statements walk flags.enterLoop)
      pure (inner.leaveLoop flags)
    | .pair _ _, type => piece (raise (.twoLoopVariables type) l)
  | .breakLoop _ => pure flags.raiseBreak
  | .continueLoop _ => pure flags.raiseContinue
  | .returnValue _ value => do
    let v ← eval scope value
    pure (flags.raiseReturn v)
  | .function l name _ _ => piece (raise (.nestedFunction name) l)
  | .bare l => piece (raise (.unsupportedStatement s.text) l)

end Stmt

/-- What the evaluation of a task does. -/
def Task.plan (ctx : Context) {α : Type} : Task α → Plan α
  | .expr scope e => e.plan scope
  | .stmt scope s flags => s.plan ctx scope flags
  | .turns scope l c statements flags => do
    if ← piece (condition l (← eval scope c)) then
      let flags ← block scope [] statements flags
      if flags.didReturn || flags.didBreak then pure flags
      else task (.turns scope l c statements flags.nextTurn)
    else pure flags
  | .visits scope vars statements walk flags => do
    match ← piece (consult walk.visit?) with
    | none => pure flags
    | some (key, value, walk) =>
      let bindings := vars.bindings walk.overDict key value
      let flags ← block scope bindings statements flags
      if flags.didReturn || flags.didBreak then pure flags
      else task (.visits scope vars statements walk flags.nextTurn)
  | .resume t => (Host.resume t).plan ctx

section Carrying

variable {ctx : Context} {fuel : Nat} {α β : Type}

private theorem Exec.consult_bind (f : Heap → Except ScriptError α) (rest : α → Exec β) :
    consult f >>= rest = inspect f >>= fun x ↦
      match x with
      | .ok a => rest a
      | .error e => throw (.error e) := by
  funext m
  simp only [Bind.bind, EStateM.bind, consult, inspect]
  cases f m.heap <;> rfl

private theorem Exec.consult_visit?_bind (w : Walk)
    (rest : Option (Value × Value × Walk) → Exec β) :
    consult w.visit? >>= rest = inspect (fun h ↦ w.next h) >>= fun next ↦
      match next with
      | (.finished, _) => rest none
      | (.invalidated cause, _) => raise cause w.location
      | (.entry key value, w) => rest (some (key, value, w)) := by
  funext m
  simp only [Bind.bind, EStateM.bind, consult, inspect, Walk.visit?]
  obtain ⟨visit, w'⟩ := w.next m.heap
  cases visit <;> rfl

/-- A computation whose result is not wanted. -/
theorem Exec.discard_eq (x : Exec α) : (discard x : Exec Unit) = (do let _ ← x; pure ()) := by
  funext m
  simp only [discard, Functor.discard, Functor.mapConst, Function.comp, EStateM.map, Bind.bind,
    EStateM.bind]
  cases x m <;> rfl

namespace Plan

/-- A value is carried out as it is. -/
@[simp]
theorem run_pure (a : α) : (pure a : Plan α).run ctx fuel = pure a := rfl

/-- A piece is carried out as a whole. -/
@[simp]
theorem run_piece (x : Exec α) : (piece x).run ctx fuel = x := rfl

/-- A sequence is carried out in order. -/
@[simp]
theorem run_bind (p : Plan α) (rest : α → Plan β) :
    (p >>= rest).run ctx fuel = p.run ctx fuel >>= fun a ↦ (rest a).run ctx fuel := rfl

/-- A sequence goes on with the result of its first part. -/
theorem run_bind_of_ok {p : Plan α} {rest : α → Plan β} {m m₁ : Machine} {a : α}
    (hp : p.run ctx fuel m = .ok a m₁) :
    (p >>= rest).run ctx fuel m = (rest a).run ctx fuel m₁ := by
  rw [run_bind]
  simp only [Bind.bind, EStateM.bind, hp]

/-- A sequence stops where its first part does. -/
theorem run_bind_of_error {p : Plan α} {rest : α → Plan β} {m m₁ : Machine} {stop : Stop}
    (hp : p.run ctx fuel m = .error stop m₁) :
    (p >>= rest).run ctx fuel m = .error stop m₁ := by
  rw [run_bind]
  simp only [Bind.bind, EStateM.bind, hp]

/-- Carrying out the evaluation of an expression is evaluating it. -/
@[simp]
theorem run_eval (scope : ScopeId) (e : Expr) :
    (eval scope e).run ctx fuel = evalExpr ctx fuel scope e := rfl

/-- A choice is carried out as the one that is chosen. -/
@[simp]
theorem run_ite (c : Prop) [Decidable c] (p q : Plan α) :
    (if c then p else q).run ctx fuel = if c then p.run ctx fuel else q.run ctx fuel := by
  split <;> rfl

/-- Things done for every element of a list. -/
@[simp]
theorem run_each (p : α → Plan β) (as : List α) :
    (each p as).run ctx fuel = as.mapM fun a ↦ (p a).run ctx fuel := by
  induction as with
  | nil => rfl
  | cons a as ih =>
    rw [each, List.mapM_cons]
    simp only [run_bind, run_pure, ih]

/-- The plan of a list of statements executes them until a flag is up. -/
@[simp]
theorem run_body (scope : ScopeId) (ss : List Stmt) (flags : Flags) :
    (body scope ss flags).run ctx fuel = runBody (execStmt ctx fuel scope) ss flags := by
  induction ss generalizing flags with
  | nil => rfl
  | cons s ss ih =>
    simp only [body, runBody, run_bind, run_ite, run_pure, ih]
    rfl

/-- A block is carried out as statements in a scope of their own. -/
@[simp]
theorem run_block (parent : ScopeId) (bindings : List (Bytes × Value)) (ss : List Stmt)
    (flags : Flags) :
    (block parent bindings ss flags).run ctx fuel =
      runScoped parent bindings (execStmt ctx fuel) ss flags := by
  simp only [block, runScoped, run, run_bind, run_body]

end Plan

/-- Carrying out the plan of a request is carrying the request out. -/
@[simp]
theorem Request.run_plan (request : Request Host.teaches) :
    (request.plan ctx).run ctx fuel = request.exec (ctx.services fuel) := by
  have hload (p : Program) (allowed : Host.teaches (.program p)) :
      (Plan.load p allowed).run ctx fuel = (ctx.services fuel).load p allowed := by
    simp only [Plan.load, run_bind, run_piece, run_body, run_pure, Services.load, Context.services,
      Services.of, discard_eq]
  cases request with
  | invoke name arguments site => rfl
  | evaluate e => rfl
  | load p allowed =>
    simp only [plan, exec, run_bind, hload, run_pure]
  | run p allowed main =>
    simp only [plan, exec, run_bind, hload, run_piece, run_ite, run_pure]
    rfl

/-- Carrying out the plan of a procedure is carrying the procedure out. -/
@[simp]
theorem Procedure.run_plan (p : Host.Script) :
    (p.plan ctx).run ctx fuel = p.exec (ctx.services fuel) := by
  induction p with
  | look next ih | act deed next ih =>
    simp only [plan, exec, run_bind, run_piece, ih]
    rfl
  | register name r allowed next ih => simp only [plan, exec, run_bind, run_piece, ih]
  | ask request next ih =>
    simp only [plan, exec, run_bind, Plan.run, Request.run_plan, ih]
  | _ => rfl

/-- Carrying out the plan of a built-in function is running it. -/
@[simp]
theorem Builtin.run_plan (b : Builtin) (arguments : List Value) (site : Token) :
    (b.plan ctx arguments site).run ctx fuel = b.run (ctx.services fuel) arguments site := by
  cases b with
  | host name routine => exact Procedure.run_plan _
  | _ => rfl

/-- A call goes to what it is resolved to, in a frame of its own. -/
theorem callFunction_succ (name : Bytes) (arguments : List Value) (site : Token) (m : Machine) :
    callFunction ctx (fuel + 1) name arguments site m =
      match ctx.resolve name arguments site m.lessons with
      | .ok callee => withFrame ctx callee.label site.location (callee.body.run ctx fuel) m
      | .error cause => raise cause site.location m := by
  simp only [callFunction, Context.resolve, Bind.bind, EStateM.bind, known]
  cases (ctx.after m.lessons).functions[name]? with
  | some f =>
    dsimp only
    split
    · simp only [Function.plan, run_bind, run_block, run_pure]
      rfl
    · rfl
  | none =>
    cases (ctx.after m.lessons).builtins[name]? with
    | some b =>
      simp only [Builtin.run_plan]
      rfl
    | none => rfl

/-- Carrying out the plan of an expression is evaluating it. -/
theorem Expr.run_plan (scope : ScopeId) (e : Expr) :
    (e.plan scope).run ctx fuel = evalExpr ctx (fuel + 1) scope e := by
  cases e with
  | binary l op left right =>
    simp only [plan, evalExpr, run_bind, run_ite, run_eval, run_piece, run_pure, operate]
  | array l elements => simp only [plan, evalExpr, run_bind, run_each, run_eval, run_piece]
  | dict l entries =>
    simp only [plan, evalExpr, run_bind, run_each, run_piece]
    rfl
  | call l receiver callee arguments =>
    simp only [plan, evalExpr, run_bind, run_each, run_eval]
    rfl
  | _ => rfl

private theorem Stmt.run_assignPlan (scope : ScopeId) (l : Location) (target : Expr) (op : AssignOp)
    (value : Expr) (flags : Flags) (text : Bytes) (hop : AssignOp.ofText? text = some op) :
    (assignPlan scope l target op value flags).run ctx fuel =
      execStmt ctx (fuel + 1) scope (.assign l target text value) flags := by
  cases target with
  | ident lt name =>
    simp only [assignPlan, execStmt, hop, run_bind, run_ite, run_eval, run_piece, run_pure,
      operate, bind_assoc]
  | index lt object key =>
    simp only [assignPlan, execStmt, hop, run_bind, run_ite, run_eval, run_piece, run_pure,
      operate, bind_assoc]
  | _ => simp only [assignPlan, execStmt, hop, run_piece]

/-- Carrying out the plan of a statement is executing it. -/
theorem Stmt.run_plan (scope : ScopeId) (s : Stmt) (flags : Flags) :
    (s.plan ctx scope flags).run ctx fuel = execStmt ctx (fuel + 1) scope s flags := by
  cases s with
  | assign l target text value =>
    cases hop : AssignOp.ofText? text with
    | none => simp only [plan, execStmt, hop, run_piece]
    | some op =>
      rw [← run_assignPlan scope l target op value flags text hop]
      simp only [plan, hop]
  | print l arguments =>
    simp only [plan, execStmt, run_bind, run_each, run_eval, run_piece]
    congr 1
    funext vs
    congr 1
    funext now
    cases now.builtins[Builtin.print.name]? with
    | none => rfl
    | some b =>
      simp only [run_bind, run_pure, Builtin.run_plan]
      rfl
  | ifThen l c statements =>
    simp only [plan, execStmt, run_bind, run_ite, run_eval, run_piece, run_block, run_pure]
  | ifElse l c statements otherwise =>
    simp only [plan, execStmt, run_bind, run_ite, run_eval, run_piece, run_block]
  | forEach l vars iterable statements =>
    simp only [plan, execStmt, run_bind, run_eval]
    congr 1
    funext v
    cases vars with
    | single name =>
      rw [run_bind, run_piece, consult_bind]
      congr 1
      funext start
      cases start <;> rfl
    | pair keyName valueName =>
      cases v.type with
      | dictionary =>
        rw [run_bind, run_piece, consult_bind]
        congr 1
        funext start
        cases start <;> rfl
      | _ => rfl
  | _ => rfl

/-- Without fuel no task is evaluated. -/
theorem Task.run_zero (t : Task α) : t.run ctx 0 = throw .outOfFuel := by
  cases t with
  | expr scope e => simp only [run, evalExpr]
  | stmt scope s flags => simp only [run, execStmt]
  | turns scope l c statements flags => simp only [run, repeatWhile]
  | visits scope vars statements walk flags => simp only [run, visitEach]
  | resume t => simp only [run, resumeThread]

/-- Carrying out the plan of a task is evaluating it. -/
theorem Task.run_succ (t : Task α) : t.run ctx (fuel + 1) = (t.plan ctx).run ctx fuel := by
  cases t with
  | expr scope e => exact (e.run_plan scope).symm
  | stmt scope s flags => exact (s.run_plan scope flags).symm
  | turns scope l c statements flags =>
    simp only [run, plan, repeatWhile, run_bind, run_ite, run_eval, run_piece, run_block, run_pure]
    rfl
  | visits scope vars statements walk flags =>
    simp only [run, plan, visitEach, run_bind, run_piece, consult_visit?_bind]
    congr 1
    funext next
    obtain ⟨visit, walk'⟩ := next
    cases visit with
    | entry key value =>
      simp only [run_block, run_ite, run_pure]
      rfl
    | _ => rfl
  | resume t =>
    simp only [run, plan, resumeThread, Procedure.run_plan]
    rfl

end Carrying
end Scriptlet
