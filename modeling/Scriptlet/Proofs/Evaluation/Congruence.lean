import Scriptlet.Proofs.Evaluation.Keeps
import Scriptlet.Proofs.Evaluation.Operations
import Scriptlet.Proofs.Heap.Edit

/-!
# Comparing runs

Two runs of one program are compared by a relation between their endings: two runs from the
same machine, in contexts that offer the same functions but may differ in how deep calls may
nest. If what the machine does in a single step respects the relation, and sequences, scopes and
calls do when their parts do, then all of evaluation does. A statement about a single run is a
comparison of the run with itself.
-/

namespace Scriptlet

namespace Exec

/-- A way to compare the endings of two runs from one machine. -/
abbrev Comparison := (α : Type) → Machine → Ending α → Ending α → Prop

/-- A comparison that holds of every step that two contexts make alike, and of whatever is put
together from what it holds of. -/
structure Congruence (ctx ctx' : Context) (P : Comparison) : Prop where
  functions : ctx'.functions = ctx.functions
  builtins : ctx'.builtins = ctx.builtins
  ok : ∀ {α : Type} (a : α) m, P α m (.ok a m) (.ok a m)
  error : ∀ {α : Type} stop m, P α m (.error stop m) (.error stop m)
  edit : ∀ {α : Type} (a : α) m h, m.heap.Edit h →
    P α m (.ok a { m with heap := h }) (.ok a { m with heap := h })
  write : ∀ text m, P Unit m (write text m) (write text m)
  declare : ∀ scope name v m, P Unit m (declare scope name v m) (declare scope name v m)
  seq : ∀ {α β : Type} {x x' : Exec α} {f f' : α → Exec β} {m}, P α m (x m) (x' m) →
    (∀ a m₁, x m = .ok a m₁ ∨ x' m = .ok a m₁ → P β m₁ (f a m₁) (f' a m₁)) →
    P β m ((x >>= f) m) ((x' >>= f') m)
  inScope : ∀ {α : Type} {x x' : ScopeId → Exec α} parent m,
    (∀ inner m', P α m' (x inner m') (x' inner m')) →
    P α m (withScope parent x m) (withScope parent x' m)
  inFrame : ∀ {α : Type} {x x' : Exec α} callee location m, (∀ m', P α m' (x m') (x' m')) →
    P α m (withFrame ctx callee location x m) (withFrame ctx' callee location x' m)

namespace Congruence

variable {α β : Type} {ctx ctx' : Context} {P : Comparison}

section Steps

private theorem lift (hP : Congruence ctx ctx' P) (l : Location) (x : Except Cause α)
    (m : Machine) : P α m (Exec.lift l x m) (Exec.lift l x m) := by
  cases x with
  | ok a => exact hP.ok a m
  | error cause => exact hP.error _ m

private theorem lookup (hP : Congruence ctx ctx' P) (scope : ScopeId) (name : Bytes) (l : Location)
    (m : Machine) : P Value m (Exec.lookup scope name l m) (Exec.lookup scope name l m) := by
  rw [Exec.lookup]
  cases m.scopes.lookup? scope name with
  | some v => exact hP.ok v m
  | none => exact hP.error _ m

private theorem condition (hP : Congruence ctx ctx' P) (l : Location) (v : Value) (m : Machine) :
    P Bool m (Exec.condition l v m) (Exec.condition l v m) := by
  cases v with
  | bool b => exact hP.ok b m
  | _ => exact hP.error _ m

private theorem modifyHeap (hP : Congruence ctx ctx' P) {f : Heap → Heap} {m : Machine}
    (he : m.heap.Edit (f m.heap)) :
    P Unit m (Exec.modifyHeap f m) (Exec.modifyHeap f m) := hP.edit () m _ he

private theorem bindAll (hP : Congruence ctx ctx' P) (scope : ScopeId)
    (bindings : List (Bytes × Value)) (m : Machine) :
    P Unit m (Exec.bindAll scope bindings m) (Exec.bindAll scope bindings m) := by
  induction bindings generalizing m with
  | nil => exact hP.ok () m
  | cons b bindings ih =>
    have hcons : Exec.bindAll scope (b :: bindings) =
        (Exec.declare scope b.1 b.2 >>= fun _ ↦ Exec.bindAll scope bindings) := rfl
    rw [hcons]
    exact hP.seq (hP.declare scope b.1 b.2 m) fun _ m₁ _ ↦ ih m₁

private theorem assign (hP : Congruence ctx ctx' P) (scope : ScopeId) (name : Bytes) (v : Value)
    (m : Machine) : P Unit m (Exec.assign scope name v m) (Exec.assign scope name v m) :=
  hP.declare ((m.scopes.owner? scope name).getD scope) name v m

private theorem inspect_seq (hP : Congruence ctx ctx' P) (f : Heap → α) {g g' : α → Exec β}
    {m : Machine} (h : P β m (g (f m.heap) m) (g' (f m.heap) m)) :
    P β m ((inspect f >>= g) m) ((inspect f >>= g') m) := by
  apply hP.seq (hP.ok (f m.heap) m)
  intro a m₁ ha
  obtain ⟨rfl, rfl⟩ := (inspect_eq_ok_iff f m m₁ a).mp (or_self_iff.mp ha)
  exact h

private theorem lift_seq (hP : Congruence ctx ctx' P) (l : Location) (x : Except Cause α)
    {g g' : α → Exec β} {m : Machine} (h : ∀ a, x = .ok a → P β m (g a m) (g' a m)) :
    P β m ((Exec.lift l x >>= g) m) ((Exec.lift l x >>= g') m) := by
  apply hP.seq (hP.lift l x m)
  intro a m₁ ha
  obtain ⟨hx, rfl⟩ := (lift_eq_ok_iff l x m m₁ a).mp (or_self_iff.mp ha)
  exact h a hx

private theorem mapM (hP : Congruence ctx ctx' P) {f f' : α → Exec β}
    (hf : ∀ a m, P β m (f a m) (f' a m)) (as : List α) (m : Machine) :
    P (List β) m (as.mapM f m) (as.mapM f' m) := by
  induction as generalizing m with
  | nil => exact hP.ok [] m
  | cons a as ih =>
    rw [List.mapM_cons, List.mapM_cons]
    apply hP.seq (hf a m)
    intro b m₁ _
    exact hP.seq (ih m₁) fun bs m₂ _ ↦ hP.ok (b :: bs) m₂

end Steps

section Bodies

private theorem runBody (hP : Congruence ctx ctx' P) {exec exec' : Stmt → Flags → Exec Flags}
    (h : ∀ s flags m, P Flags m (exec s flags m) (exec' s flags m)) (ss : List Stmt)
    (flags : Flags) (m : Machine) :
    P Flags m (Exec.runBody exec ss flags m) (Exec.runBody exec' ss flags m) := by
  induction ss generalizing flags m with
  | nil => exact hP.ok flags m
  | cons s ss ih =>
    rw [Exec.runBody, Exec.runBody]
    apply hP.seq (h s flags m)
    intro flags m₁ _
    split
    · exact hP.ok flags m₁
    · exact ih flags m₁

private theorem runScoped (hP : Congruence ctx ctx' P)
    {exec exec' : ScopeId → Stmt → Flags → Exec Flags}
    (h : ∀ scope s flags m, P Flags m (exec scope s flags m) (exec' scope s flags m))
    (parent : ScopeId) (bindings : List (Bytes × Value)) (body : List Stmt) (flags : Flags)
    (m : Machine) :
    P Flags m (Exec.runScoped parent bindings exec body flags m)
      (Exec.runScoped parent bindings exec' body flags m) := by
  apply hP.inScope parent m
  intro inner m'
  exact hP.seq (hP.bindAll inner bindings m') fun _ m₁ _ ↦ hP.runBody (h inner) body flags m₁

private theorem entry (hP : Congruence ctx ctx' P) {eval eval' : Expr → Exec Value}
    (h : ∀ e m, P Value m (eval e m) (eval' e m)) (l : Location) (p : Expr × Expr) (m : Machine) :
    P (Key × Value) m (Exec.entry eval l p m) (Exec.entry eval' l p m) := by
  rw [Exec.entry, Exec.entry]
  apply hP.seq (h p.1 m)
  intro k m₁ _
  apply hP.lift_seq
  intro key _
  exact hP.seq (h p.2 m₁) fun v m₂ _ ↦ hP.ok (key, v) m₂

end Bodies

end Congruence
end Exec

namespace Builtin

open Exec

variable {ctx ctx' : Context} {P : Comparison}

private theorem compared_run (hP : Congruence ctx ctx' P) {s s' : Services}
    (hinvoke : ∀ name arguments site m,
      P Value m (s.invoke name arguments site m) (s'.invoke name arguments site m))
    (b : Builtin) (arguments : List Value) (site : Token) (m : Machine) :
    P Value m (b.run s arguments site m) (b.run s' arguments site m) := by
  rcases b.native_or_host arguments with ⟨respond, hb⟩ | ⟨name, answer, rfl⟩
  · rw [hb.run_eq, hb.run_eq, reply]
    cases hr : respond m.heap with
    | error cause => exact hP.error _ m
    | ok r =>
      -- The heap is changed first, then the text is written.
      have hheap : P Unit m (Exec.modifyHeap (fun _ ↦ r.heap) m)
          (Exec.modifyHeap (fun _ ↦ r.heap) m) := by
        rcases hb.edit hr with hsame | hedit
        · rw [Exec.modifyHeap, hsame]
          exact hP.ok () m
        · exact hP.modifyHeap hedit
      exact hP.seq hheap fun _ m₁ _ ↦ hP.seq (hP.write r.written m₁) fun _ m₂ _ ↦ hP.ok r.value m₂
  · have hlog : P Unit m (logCall name arguments site m) (logCall name arguments site m) :=
      hP.write _ m
    rw [run_host, run_host]
    apply hP.seq hlog
    intro _ m₁ _
    cases answer with
    | value v => exact hP.ok v m₁
    | failure detail => exact hP.error _ m₁
    | call callee => exact hinvoke callee arguments site m₁

end Builtin

open Exec

/-- All evaluations with some fuel compare. -/
structure Compared (ctx ctx' : Context) (P : Comparison) (fuel : Nat) : Prop where
  expr : ∀ scope e m,
    P Value m (evalExpr ctx fuel scope e m) (evalExpr ctx' fuel scope e m)
  stmt : ∀ scope s flags m,
    P Flags m (execStmt ctx fuel scope s flags m) (execStmt ctx' fuel scope s flags m)
  turns : ∀ scope l c body flags m,
    P Flags m (repeatWhile ctx fuel scope l c body flags m)
      (repeatWhile ctx' fuel scope l c body flags m)
  visits : ∀ scope vars body walk flags m,
    P Flags m (visitEach ctx fuel scope vars body walk flags m)
      (visitEach ctx' fuel scope vars body walk flags m)
  call : ∀ name arguments site m,
    P Value m (callFunction ctx fuel name arguments site m)
      (callFunction ctx' fuel name arguments site m)

namespace Compared

variable {ctx ctx' : Context} {P : Comparison} {fuel : Nat}

private theorem zero (hP : Congruence ctx ctx' P) : Compared ctx ctx' P 0 where
  expr scope e m := by
    rw [evalExpr, evalExpr]
    exact hP.error _ m
  stmt scope s flags m := by
    rw [execStmt, execStmt]
    exact hP.error _ m
  turns scope l c body flags m := by
    rw [repeatWhile, repeatWhile]
    exact hP.error _ m
  visits scope vars body walk flags m := by
    rw [visitEach, visitEach]
    exact hP.error _ m
  call name arguments site m := by
    rw [callFunction, callFunction]
    exact hP.error _ m

private theorem expr_succ (hP : Congruence ctx ctx' P) (h : Compared ctx ctx' P fuel)
    (scope : ScopeId) (e : Expr) (m : Machine) :
    P Value m (evalExpr ctx (fuel + 1) scope e m) (evalExpr ctx' (fuel + 1) scope e m) := by
  cases e with
  | absent | int l n | str l s | bool l b | none l =>
    simp only [evalExpr]
    exact hP.ok _ m
  | ident l name =>
    simp only [evalExpr]
    exact hP.lookup scope name l m
  | unary l op operand =>
    simp only [evalExpr]
    exact hP.seq (h.expr scope operand m) fun v m₁ _ ↦ hP.lift l _ m₁
  | binary l op left right =>
    have hright (m : Machine) : P Value m
        ((do return .bool (← condition l (← evalExpr ctx fuel scope right)) : Exec Value) m)
        ((do return .bool (← condition l (← evalExpr ctx' fuel scope right)) : Exec Value) m) := by
      apply hP.seq (h.expr scope right m)
      intro b m₁ _
      exact hP.seq (hP.condition l b m₁) fun _ m₂ _ ↦ hP.ok _ m₂
    simp only [evalExpr]
    apply hP.seq (h.expr scope left m)
    intro a m₁ _
    split
    · apply hP.seq (hP.condition l a m₁)
      intro x m₂ _
      split
      · exact hright m₂
      · exact hP.ok _ m₂
    · split
      · apply hP.seq (hP.condition l a m₁)
        intro x m₂ _
        split
        · exact hP.ok _ m₂
        · exact hright m₂
      · apply hP.seq (h.expr scope right m₁)
        intro b m₂ _
        exact hP.inspect_seq _ (hP.lift l _ m₂)
  | index l object key =>
    simp only [evalExpr]
    apply hP.seq (h.expr scope object m)
    intro container m₁ _
    apply hP.seq (h.expr scope key m₁)
    intro k m₂ _
    exact hP.inspect_seq _ (hP.lift l _ m₂)
  | array l elements =>
    simp only [evalExpr]
    apply hP.seq (hP.mapM (h.expr scope) elements m)
    intro vs m₁ _
    exact hP.edit _ m₁ _ (.newArray _)
  | dict l entries =>
    simp only [evalExpr]
    apply hP.seq (hP.mapM (hP.entry (h.expr scope) l) entries m)
    intro pairs m₁ _
    exact hP.edit _ m₁ _ (.newDict pairs)
  | call l receiver callee arguments =>
    simp only [evalExpr]
    apply hP.seq (hP.mapM (h.expr scope) _ m)
    intro vs m₁ _
    exact h.call callee vs _ m₁
  | bare l =>
    simp only [evalExpr]
    exact hP.error _ m

private theorem assign (hP : Congruence ctx ctx' P) (h : Compared ctx ctx' P fuel) (scope : ScopeId)
    (l : Location) (target : Expr) (op : Bytes) (value : Expr) (flags : Flags) (m : Machine) :
    P Flags m (execStmt ctx (fuel + 1) scope (.assign l target op value) flags m)
      (execStmt ctx' (fuel + 1) scope (.assign l target op value) flags m) := by
  simp only [execStmt]
  cases AssignOp.ofText? op with
  | none => exact hP.error _ m
  | some op' =>
    cases target with
    | ident lt name =>
      have hstore (current : Value) (m : Machine) : P Flags m
          ((do
            let new ← evalExpr ctx fuel scope value
            Exec.assign scope name (← lift l (← inspect fun h ↦ op'.combine h current new))
            pure flags : Exec Flags) m)
          ((do
            let new ← evalExpr ctx' fuel scope value
            Exec.assign scope name (← lift l (← inspect fun h ↦ op'.combine h current new))
            pure flags : Exec Flags) m) := by
        apply hP.seq (h.expr scope value m)
        intro new m₁ _
        apply hP.inspect_seq
        apply hP.lift_seq
        intro v _
        exact hP.seq (hP.assign scope name v m₁) fun _ m₂ _ ↦ hP.ok flags m₂
      dsimp only
      split
      · exact hstore .none m
      · exact hP.seq (hP.lookup scope name lt m) fun current m₁ _ ↦ hstore current m₁
    | index lt object key =>
      dsimp only
      apply hP.seq (h.expr scope object m)
      intro container m₁ _
      apply hP.seq (h.expr scope key m₁)
      intro k m₂ _
      apply hP.seq (h.expr scope value m₂)
      intro new m₃ _
      have hwrite (current : Value) : P Flags m₃
          ((do
            let v ← lift l (← inspect fun h ↦ op'.combine h current new)
            let heap ← lift lt (← inspect (·.write container k v))
            modifyHeap fun _ ↦ heap
            pure flags : Exec Flags) m₃)
          ((do
            let v ← lift l (← inspect fun h ↦ op'.combine h current new)
            let heap ← lift lt (← inspect (·.write container k v))
            modifyHeap fun _ ↦ heap
            pure flags : Exec Flags) m₃) := by
        apply hP.inspect_seq
        apply hP.lift_seq
        intro v _
        apply hP.inspect_seq
        apply hP.lift_seq
        intro heap written
        apply hP.seq (hP.modifyHeap (.write container k v written))
        intro _ m₄ _
        exact hP.ok flags m₄
      split
      · split
        · exact hwrite .none
        · apply hP.inspect_seq
          apply hP.lift_seq
          intro current _
          exact hwrite current
      · exact hP.error _ m₃
    | _ => exact hP.error _ m

private theorem forEach (hP : Congruence ctx ctx' P) (h : Compared ctx ctx' P fuel)
    (scope : ScopeId) (l : Location) (vars : LoopVars) (iterable : Expr) (body : List Stmt)
    (flags : Flags)
    (m : Machine) :
    P Flags m (execStmt ctx (fuel + 1) scope (.forEach l vars iterable body) flags m)
      (execStmt ctx' (fuel + 1) scope (.forEach l vars iterable body) flags m) := by
  have hloop (walk : Walk) (m : Machine) : P Flags m
      ((do return (← visitEach ctx fuel scope vars body walk flags.enterLoop).leaveLoop flags :
        Exec Flags) m)
      ((do return (← visitEach ctx' fuel scope vars body walk flags.enterLoop).leaveLoop flags :
        Exec Flags) m) :=
    hP.seq (h.visits scope vars body walk _ m) fun _ m₁ _ ↦ hP.ok _ m₁
  simp only [execStmt]
  apply hP.seq (h.expr scope iterable m)
  intro v m₁ _
  cases vars with
  | single name =>
    apply hP.inspect_seq
    cases Walk.start m₁.heap v l with
    | ok walk => exact hloop walk m₁
    | error e => exact hP.error _ m₁
  | pair key value =>
    cases v.type with
    | dictionary =>
      apply hP.inspect_seq
      cases Walk.start m₁.heap v l with
      | ok walk => exact hloop walk m₁
      | error e => exact hP.error _ m₁
    | _ => exact hP.error _ m₁

private theorem stmt_succ (hP : Congruence ctx ctx' P) (h : Compared ctx ctx' P fuel)
    (scope : ScopeId) (s : Stmt) (flags : Flags) (m : Machine) :
    P Flags m (execStmt ctx (fuel + 1) scope s flags m)
      (execStmt ctx' (fuel + 1) scope s flags m) := by
  have hblock := hP.runScoped h.stmt scope []
  cases s with
  | absent | breakLoop l | continueLoop l =>
    simp only [execStmt]
    exact hP.ok _ m
  | declare l name value =>
    simp only [execStmt]
    apply hP.seq (h.expr scope value m)
    intro v m₁ _
    exact hP.seq (hP.declare scope name v m₁) fun _ m₂ _ ↦ hP.ok flags m₂
  | assign l target op value => exact h.assign hP scope l target op value flags m
  | print l arguments =>
    simp only [execStmt, known_eq, pure_bind, hP.builtins]
    apply hP.seq (hP.mapM (h.expr scope) arguments m)
    intro vs m₁ _
    cases ctx.builtins[Builtin.print.name]? with
    | none => exact hP.error _ m₁
    | some b =>
      apply hP.seq (b.compared_run hP h.call vs _ m₁)
      intro _ m₂ _
      exact hP.ok flags m₂
  | evaluate l e =>
    simp only [execStmt]
    exact hP.seq (h.expr scope e m) fun _ m₁ _ ↦ hP.ok flags m₁
  | ifThen l c body =>
    simp only [execStmt]
    apply hP.seq (h.expr scope c m)
    intro v m₁ _
    apply hP.seq (hP.condition l v m₁)
    intro b m₂ _
    split
    · exact hblock body flags m₂
    · exact hP.ok flags m₂
  | ifElse l c body otherwise =>
    simp only [execStmt]
    apply hP.seq (h.expr scope c m)
    intro v m₁ _
    apply hP.seq (hP.condition l v m₁)
    intro b m₂ _
    split
    · exact hblock body flags m₂
    · exact hblock otherwise flags m₂
  | whileLoop l c body =>
    simp only [execStmt]
    exact hP.seq (h.turns scope l c body _ m) fun _ m₁ _ ↦ hP.ok _ m₁
  | forEach l vars iterable body => exact h.forEach hP scope l vars iterable body flags m
  | returnValue l value =>
    simp only [execStmt]
    exact hP.seq (h.expr scope value m) fun _ m₁ _ ↦ hP.ok _ m₁
  | function l name parameters body | bare l =>
    simp only [execStmt]
    exact hP.error _ m

private theorem turns_succ (hP : Congruence ctx ctx' P) (h : Compared ctx ctx' P fuel)
    (scope : ScopeId) (l : Location) (c : Expr) (body : List Stmt) (flags : Flags) (m : Machine) :
    P Flags m (repeatWhile ctx (fuel + 1) scope l c body flags m)
      (repeatWhile ctx' (fuel + 1) scope l c body flags m) := by
  simp only [repeatWhile]
  apply hP.seq (h.expr scope c m)
  intro v m₁ _
  apply hP.seq (hP.condition l v m₁)
  intro b m₂ _
  split
  · apply hP.seq (hP.runScoped h.stmt scope [] body flags m₂)
    intro flags m₃ _
    split
    · exact hP.ok flags m₃
    · exact h.turns scope l c body flags.nextTurn m₃
  · exact hP.ok flags m₂

private theorem visits_succ (hP : Congruence ctx ctx' P) (h : Compared ctx ctx' P fuel)
    (scope : ScopeId) (vars : LoopVars) (body : List Stmt) (walk : Walk) (flags : Flags)
    (m : Machine) :
    P Flags m (visitEach ctx (fuel + 1) scope vars body walk flags m)
      (visitEach ctx' (fuel + 1) scope vars body walk flags m) := by
  simp only [visitEach]
  apply hP.inspect_seq
  obtain ⟨visit, walk'⟩ := walk.next m.heap
  cases visit with
  | finished => exact hP.ok flags m
  | invalidated cause => exact hP.error _ m
  | entry key value =>
    apply hP.seq (hP.runScoped h.stmt scope _ body flags m)
    intro flags m₁ _
    split
    · exact hP.ok flags m₁
    · exact h.visits scope vars body _ flags.nextTurn m₁

private theorem call_succ (hP : Congruence ctx ctx' P) (h : Compared ctx ctx' P fuel) (name : Bytes)
    (arguments : List Value) (site : Token) (m : Machine) :
    P Value m (callFunction ctx (fuel + 1) name arguments site m)
      (callFunction ctx' (fuel + 1) name arguments site m) := by
  simp only [callFunction, known_eq, pure_bind, hP.functions, hP.builtins]
  cases ctx.functions[name]? with
  | some f =>
    dsimp only
    split
    · apply hP.inFrame
      intro m'
      apply hP.seq (hP.runScoped h.stmt .global _ f.body {} m')
      intro flags m₁ _
      exact hP.ok _ m₁
    · exact hP.error _ m
  | none =>
    cases ctx.builtins[name]? with
    | some b => exact hP.inFrame _ _ m (b.compared_run hP h.call arguments site)
    | none => exact hP.error _ m

end Compared

namespace Exec.Congruence

variable {ctx ctx' : Context} {P : Comparison}

/-- A congruence compares everything that is evaluated. -/
theorem compared (hP : Congruence ctx ctx' P) (fuel : Nat) : Compared ctx ctx' P fuel := by
  induction fuel with
  | zero => exact Compared.zero hP
  | succ fuel ih =>
    exact ⟨ih.expr_succ hP, ih.stmt_succ hP, ih.turns_succ hP, ih.visits_succ hP,
      ih.call_succ hP⟩

/-- Programs compare. -/
theorem ofProgram (hP : Congruence ctx ctx' P) (fuel : Nat) (p : Option Program) (m : Machine) :
    P Unit m ((Plan.ofProgram p).run ctx fuel m) ((Plan.ofProgram p).run ctx' fuel m) := by
  cases p with
  | none => exact hP.ok () m
  | some p =>
    simp only [Plan.ofProgram, Plan.run_bind, Plan.run_body, Plan.run_pure]
    apply hP.seq (hP.runBody ((hP.compared fuel).stmt .global) p.topLevel {} m)
    intro _ m₁ _
    exact hP.ok () m₁

/-- Programs whose entry is called afterwards compare. -/
theorem running (hP : Congruence ctx ctx' P) (fuel : Nat) (p : Option Program) (entry : Bytes)
    (m : Machine) : P Value m ((Plan.running p entry ctx).run ctx fuel m)
      ((Plan.running p entry ctx').run ctx' fuel m) := by
  apply hP.seq (hP.ofProgram fuel p m)
  intro _ m₁ _
  simp only [Plan.entryCall, Plan.run_bind, Plan.run_piece, known_eq, pure_bind, Plan.run_ite,
    hP.functions]
  split
  · exact (hP.compared fuel).call entry _ _ m₁
  · exact hP.ok _ m₁

end Exec.Congruence

namespace Exec

/-- A relation from the machine found to the machine left that single runs have, whatever they
evaluate: it can be joined, holds of the steps of the machine, and does not depend on the scope
or the call that something is evaluated in. -/
structure Stable (R : Machine → Machine → Prop) : Prop where
  refl : ∀ m, R m m
  trans : ∀ {m₁ m₂ m₃}, R m₁ m₂ → R m₂ m₃ → R m₁ m₃
  edit : ∀ m h, m.heap.Edit h → R m { m with heap := h }
  write : ∀ (text : Bytes) m, R m { m with output := m.output.appendList text }
  declare : ∀ scope name v m, R m { m with scopes := m.scopes.bind scope name v }
  inScope : ∀ parent m m', R { m with scopes := (m.scopes.enter (some parent)).2 } m' →
    R m { m' with scopes := m'.scopes.leave (m.scopes.enter (some parent)).1 }
  inFrame : ∀ m m', R { m with depth := m.depth + 1 } m' →
    R m { m' with depth := m'.depth - 1 }

namespace Stable

variable {R : Machine → Machine → Prop}

/-- Such a relation is a comparison of each run with itself. -/
theorem congruence (hR : Stable R) (ctx : Context) :
    Congruence ctx ctx fun _ m r _ ↦ R m r.machine where
  functions := rfl
  builtins := rfl
  ok _ m := hR.refl m
  error _ m := hR.refl m
  edit _ m h he := hR.edit m h he
  write text m := hR.write text m
  declare scope name v m := hR.declare scope name v m
  seq {α β x x' f f' m} hx hf := by
    simp only [bind, EStateM.bind]
    cases hr : x m with
    | ok a m₁ =>
      rw [hr] at hx
      exact hR.trans hx (hf a m₁ (Or.inl hr))
    | error stop m₁ =>
      rw [hr] at hx
      exact hx
  inScope {α x x'} parent m h := by
    have hinner := h (m.scopes.enter (some parent)).1
      { m with scopes := (m.scopes.enter (some parent)).2 }
    have hm := hR.inScope parent m _ hinner
    simp only [withScope, andThenAlways]
    cases hr : x (m.scopes.enter (some parent)).1
        { m with scopes := (m.scopes.enter (some parent)).2 } <;>
      · rw [hr] at hm
        exact hm
  inFrame {α x x'} callee location m h := by
    have hm := hR.inFrame m _ (h { m with depth := m.depth + 1 })
    simp only [withFrame]
    split
    · exact hR.refl m
    · simp only [andThenAlways]
      cases hr : x { m with depth := m.depth + 1 } <;>
        · rw [hr] at hm
          exact hm

/-- All evaluations with some fuel keep the relation. -/
theorem keeps (hR : Stable R) (ctx : Context) (fuel : Nat) :
    Compared ctx ctx (fun _ m r _ ↦ R m r.machine) fuel := (hR.congruence ctx).compared fuel

end Stable
end Exec

end Scriptlet
