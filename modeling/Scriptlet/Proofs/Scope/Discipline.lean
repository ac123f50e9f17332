import Scriptlet.Evaluation.Interpreter
import Scriptlet.Proofs.Evaluation.Keeps
import Scriptlet.Proofs.Scope.Frame

/-!
# Scope discipline

Evaluating an expression, with every call it makes, can give global variables other values and
changes no other scope that was there before. A statement can also change scopes around it,
but binds no name in any of them, and in its own scope only a name that it declares itself or
assigns to while nothing in sight is called so.
-/

namespace Scriptlet

/-- Whether a statement can bind a name in the scope it stands in: as the name it declares, or
as the target of a plain assignment when nothing in sight has that name. -/
def Stmt.Introduces (s : Stmt) (scopes : Scopes) (scope : ScopeId) (name : Bytes) : Prop :=
  match s with
  | .declare _ declared _ => name = declared
  | .assign _ (.ident _ target) op _ =>
    op = "=" ∧ name = target ∧ scopes.has scope target = false
  | _ => False

namespace Machine

/-- Only values of global variables differ. -/
def Apart (m m' : Machine) : Prop :=
  Scopes.Frame (· = .global) (fun _ _ ↦ False) m.scopes m'.scopes

/-- Only values of variables seen from `scope` differ, and only there are names gained. -/
def Within (scope : ScopeId) (gained : Bytes → Prop) (m m' : Machine) : Prop :=
  Scopes.Frame (fun i ↦ i = .global ∨ i ∈ m.scopes.chain scope)
    (fun i name ↦ i = scope ∧ gained name) m.scopes m'.scopes

/-- An assignment to `name` at most. -/
def Assigns (scope : ScopeId) (name : Bytes) (m m' : Machine) : Prop :=
  m.Within scope (fun n ↦ n = name ∧ m.scopes.has scope name = false) m'

section Relations

variable {scope : ScopeId} {gained gained' : Bytes → Prop} {m m₁ m₂ m₃ : Machine}

private theorem joinable_apart : Exec.Joinable Apart where
  memory m _ _ := Scopes.Frame.refl m.scopes
  trans := Scopes.Frame.trans

private theorem joinable_within (scope : ScopeId) (gained : Bytes → Prop) :
    Exec.Joinable (Within scope gained) where
  memory m _ _ := Scopes.Frame.refl m.scopes
  trans h₁ h₂ := by
    rw [Within, h₁.chain_eq scope] at h₂
    exact h₁.trans h₂

private theorem Within.mono (h : m₁.Within scope gained m₂)
    (hg : ∀ name, gained name → gained' name) : m₁.Within scope gained' m₂ :=
  Scopes.Frame.mono h (fun _ hi ↦ hi) fun _ name hi ↦ ⟨hi.1, hg name hi.2⟩

private theorem Apart.within (h : m₁.Apart m₂) : m₁.Within scope gained m₂ :=
  Scopes.Frame.mono h (fun _ hi ↦ Or.inl hi) fun _ _ hf ↦ hf.elim

private theorem Apart.has_eq (h : m₁.Apart m₂) (scope : ScopeId) (name : Bytes) :
    m₂.scopes.has scope name = m₁.scopes.has scope name := by
  rw [Scopes.has, Scopes.has, h.chain_eq scope]
  congr 1
  funext i
  exact h.binds_eq i name

private theorem Apart.assigns {name : Bytes} (h : m₁.Apart m₂) (ha : m₂.Assigns scope name m₃) :
    m₁.Assigns scope name m₃ := by
  rw [Assigns, h.has_eq scope name] at ha
  exact (joinable_within scope _).trans h.within ha

end Relations

end Machine

namespace Exec

open Machine

private theorem keeps_runBody {scope : ScopeId} {exec : Stmt → Flags → Exec Flags}
    (hexec : ∀ s flags, Keeps (Within scope fun _ ↦ True) (exec s flags)) (ss : List Stmt)
    (flags : Flags) : Keeps (Within scope fun _ ↦ True) (runBody exec ss flags) := by
  have hj := joinable_within scope fun _ ↦ True
  induction ss generalizing flags with
  | nil => exact hj.keeps_pure flags
  | cons s ss ih =>
    rw [runBody]
    apply (hexec s flags).bind hj
    intro flags
    split
    · exact hj.keeps_pure flags
    · exact ih flags

private theorem keeps_runScoped {exec : ScopeId → Stmt → Flags → Exec Flags}
    (hexec : ∀ scope s flags, Keeps (Within scope fun _ ↦ True) (exec scope s flags))
    (parent : ScopeId) (bindings : List (Bytes × Value)) (body : List Stmt) (flags : Flags) :
    Keeps (Within parent fun _ ↦ False) (runScoped parent bindings exec body flags) := by
  intro m
  rw [runScoped, after_withScope]
  -- Inside, everything happens within the new scope, which is gone afterwards.
  have hinner (inner : ScopeId) :
      Keeps (Within inner fun _ ↦ True)
        (bindAll inner bindings >>= fun _ ↦ runBody (exec inner) body flags) := by
    refine Keeps.bind (joinable_within inner _) (fun m ↦ ?_) fun _ ↦
      keeps_runBody (hexec inner) body flags
    refine (m.scopes.frame_bindAll inner bindings).mono ?_ fun _ _ hi ↦ ⟨hi, trivial⟩
    rintro i rfl
    exact Or.inr (m.scopes.mem_chain_self i)
  have h : Scopes.Frame _ _ (m.scopes.enter (some parent)).2 _ :=
    hinner (m.scopes.enter (some parent)).1 { m with scopes := (m.scopes.enter (some parent)).2 }
  refine (Scopes.Frame.leave (some parent) h).mono ?_ ?_
  · rintro i ⟨hg | hi, hne⟩
    · exact Or.inl hg
    · exact Or.inr ((m.scopes.mem_chain_enter parent i hi).resolve_left hne)
  · rintro i name ⟨⟨hi, -⟩, hne⟩
    exact absurd hi hne

private theorem keeps_runScoped_global {exec : ScopeId → Stmt → Flags → Exec Flags}
    (hexec : ∀ scope s flags, Keeps (Within scope fun _ ↦ True) (exec scope s flags))
    (bindings : List (Bytes × Value)) (body : List Stmt) (flags : Flags) :
    Keeps Apart (runScoped .global bindings exec body flags) := by
  intro m
  have h : Scopes.Frame _ _ _ _ := keeps_runScoped hexec .global bindings body flags m
  refine h.mono ?_ fun _ _ hi ↦ hi.2
  rintro i (hi | hi)
  · exact hi
  · exact m.scopes.mem_chain_zero i hi

private theorem keeps_assign (scope : ScopeId) (name : Bytes) (v : Value) :
    Keeps (Assigns scope name) (assign scope name v) := by
  intro m
  refine (m.scopes.frame_assign scope name v).mono ?_ fun _ _ hi ↦ hi
  intro i hi
  exact Or.inr hi

private theorem keeps_declare (scope : ScopeId) (name : Bytes) (v : Value) :
    Keeps (Within scope (· = name)) (declare scope name v) := by
  intro m
  refine (m.scopes.frame_bind scope name v).mono ?_ fun _ _ hi ↦ hi
  rintro i rfl
  exact Or.inr (m.scopes.mem_chain_self i)

end Exec

private theorem AssignOp.eq_of_ofText?_eq_plain (op : Bytes)
    (h : AssignOp.ofText? op = some .plain) : op = "=" := by
  have ht := List.find?_some (p := fun a : AssignOp ↦ a.text = op) h
  simpa [AssignOp.text, eq_comm] using ht

open Machine Exec

/-- Whatever is evaluated with this fuel keeps to its scope. -/
structure Disciplined (ctx : Context) (fuel : Nat) : Prop where
  expr : ∀ scope e, Keeps Apart (evalExpr ctx fuel scope e)
  stmt : ∀ scope s flags (m : Machine),
    m.Within scope (s.Introduces m.scopes scope) ((execStmt ctx fuel scope s flags).after m)
  whileLoop : ∀ scope l c body flags,
    Keeps (Within scope fun _ ↦ False) (repeatWhile ctx fuel scope l c body flags)
  forEach : ∀ scope vars body walk flags,
    Keeps (Within scope fun _ ↦ False) (visitEach ctx fuel scope vars body walk flags)
  call : ∀ name arguments site, Keeps Apart (callFunction ctx fuel name arguments site)

namespace Disciplined

variable {ctx : Context} {fuel : Nat}

private theorem zero (ctx : Context) : Disciplined ctx 0 where
  expr scope e := by
    rw [evalExpr]
    exact joinable_apart.keeps_throw _
  stmt scope s flags m := by
    rw [execStmt]
    exact (joinable_within scope _).keeps_throw _ m
  whileLoop scope l c body flags := by
    rw [repeatWhile]
    exact (joinable_within scope _).keeps_throw _
  forEach scope vars body walk flags := by
    rw [visitEach]
    exact (joinable_within scope _).keeps_throw _
  call name arguments site := by
    rw [callFunction]
    exact joinable_apart.keeps_throw _

private theorem keeps_condition (l : Location) (v : Value) : Keeps Apart (condition l v) := by
  cases v with
  | bool b => exact joinable_apart.keeps_pure b
  | _ => exact joinable_apart.keeps_raise _ l

private theorem within_condition (scope : ScopeId) (l : Location) (v : Value) :
    Keeps (Within scope fun _ ↦ False) (condition l v) :=
  (keeps_condition l v).mono fun _ _ ↦ Apart.within

private theorem keeps_expr (h : Disciplined ctx fuel) (scope : ScopeId) (e : Expr) :
    Keeps (Within scope fun _ ↦ False) (evalExpr ctx fuel scope e) :=
  (h.expr scope e).mono fun _ _ ↦ Apart.within

private theorem keeps_stmt (h : Disciplined ctx fuel) (scope : ScopeId) (s : Stmt) (flags : Flags) :
    Keeps (Within scope fun _ ↦ True) (execStmt ctx fuel scope s flags) :=
  fun m ↦ (h.stmt scope s flags m).mono fun _ _ ↦ trivial

private theorem keeps_expr_succ (h : Disciplined ctx fuel) (scope : ScopeId) (e : Expr) :
    Keeps Apart (evalExpr ctx (fuel + 1) scope e) := by
  have hj := joinable_apart
  cases e with
  | absent | int l n | str l s | bool l b | none l =>
    simp only [evalExpr]
    exact hj.keeps_pure _
  | ident l name =>
    simp only [evalExpr]
    exact hj.keeps_lookup scope name l
  | unary l op operand =>
    simp only [evalExpr]
    exact (h.expr scope operand).bind hj fun v ↦ hj.keeps_lift l _
  | binary l op left right =>
    have hright : Keeps Apart (do
        return .bool (← condition l (← evalExpr ctx fuel scope right)) : Exec Value) :=
      (h.expr scope right).bind hj fun b ↦ (keeps_condition l b).bind hj fun _ ↦ hj.keeps_pure _
    simp only [evalExpr]
    apply (h.expr scope left).bind hj
    intro a
    split
    · apply (keeps_condition l a).bind hj
      intro x
      split
      · exact hright
      · exact hj.keeps_pure _
    · split
      · apply (keeps_condition l a).bind hj
        intro x
        split
        · exact hj.keeps_pure _
        · exact hright
      · apply (h.expr scope right).bind hj
        intro b
        exact (hj.keeps_inspect _).bind hj fun r ↦ hj.keeps_lift l r
  | index l object key =>
    simp only [evalExpr]
    apply (h.expr scope object).bind hj
    intro container
    apply (h.expr scope key).bind hj
    intro k
    exact (hj.keeps_inspect _).bind hj fun r ↦ hj.keeps_lift l r
  | array l elements =>
    simp only [evalExpr]
    exact (hj.keeps_mapM (h.expr scope) elements).bind hj fun vs ↦ hj.keeps_newArray vs
  | dict l entries =>
    simp only [evalExpr]
    refine (hj.keeps_mapM ?_ entries).bind hj fun pairs ↦ hj.keeps_newDict _
    rintro ⟨key, value⟩
    rw [entry]
    refine (h.expr scope key).bind hj fun k ↦ (hj.keeps_lift _ _).bind hj fun k ↦ ?_
    exact (h.expr scope value).bind hj fun v ↦ hj.keeps_pure _
  | call l receiver callee arguments =>
    simp only [evalExpr]
    exact (hj.keeps_mapM (h.expr scope) _).bind hj fun vs ↦ h.call callee vs _
  | bare l =>
    simp only [evalExpr]
    exact hj.keeps_raise _ l

private theorem keeps_before_assign {α β : Type} {scope : ScopeId} {name : Bytes} {x : Exec α}
    {f : α → Exec β} (hx : Keeps Apart x) (hf : ∀ a, Keeps (Assigns scope name) (f a)) :
    Keeps (Assigns scope name) (x >>= f) :=
  hx.seq hf (fun _ _ h ↦ h.within) fun _ _ _ ↦ Apart.assigns

private theorem keeps_store (h : Disciplined ctx fuel) (scope : ScopeId) (name : Bytes)
    (l : Location) (op : AssignOp) (value : Expr) (current : Value) (flags : Flags) :
    Keeps (Assigns scope name) (do
      let new ← evalExpr ctx fuel scope value
      assign scope name (← lift l (← inspect fun h ↦ op.combine h current new))
      pure flags) := by
  apply keeps_before_assign (h.expr scope value)
  intro new
  apply keeps_before_assign (joinable_apart.keeps_inspect _)
  intro r
  apply keeps_before_assign (joinable_apart.keeps_lift l r)
  intro v m
  exact keeps_assign scope name v m

private theorem within_assign (h : Disciplined ctx fuel) (scope : ScopeId) (l lt : Location)
    (name : Bytes) (op : AssignOp) (value : Expr) (flags : Flags) (m : Machine) :
    m.Within scope (fun n ↦ op = .plain ∧ n = name ∧ m.scopes.has scope name = false)
      ((do
        let current ← if op = .plain then pure .none else lookup scope name lt
        let new ← evalExpr ctx fuel scope value
        assign scope name (← lift l (← inspect fun h ↦ op.combine h current new))
        pure flags : Exec Flags).after m) := by
  by_cases hop : op = .plain
  · have hk := keeps_before_assign (joinable_apart.keeps_pure Value.none)
      (fun current ↦ h.keeps_store scope name l op value current flags) m
    simp only [hop, if_true, true_and] at hk ⊢
    exact hk
  · rw [if_neg hop, after_bind]
    cases hl : m.scopes.lookup? scope name with
    | none =>
      have hm : lookup scope name lt m =
          .error (.error { cause := .unboundVariable name, location := lt }) m := by
        simp only [lookup, hl]
      rw [hm]
      exact (joinable_within scope _).refl m
    | some v =>
      have hm : lookup scope name lt m = .ok v m := by simp only [lookup, hl]
      rw [hm]
      refine Within.mono (h.keeps_store scope name l op value v flags m) ?_
      rintro n ⟨-, hn⟩
      rw [m.scopes.has_of_lookup? scope name v hl] at hn
      cases hn

private theorem keeps_write_index {R : Machine → Machine → Prop} (hj : Joinable R)
    (l lt : Location) (op : AssignOp) (container k new current : Value) (flags : Flags) :
    Keeps R (do
      let v ← lift l (← inspect fun h ↦ op.combine h current new)
      let heap ← lift lt (← inspect (·.write container k v))
      modifyHeap fun _ ↦ heap
      pure flags) := by
  refine (hj.keeps_inspect _).bind hj fun r ↦ (hj.keeps_lift l r).bind hj fun v ↦ ?_
  refine (hj.keeps_inspect _).bind hj fun r ↦ (hj.keeps_lift lt r).bind hj fun heap ↦ ?_
  exact (hj.keeps_modifyHeap _).bind hj fun _ ↦ hj.keeps_pure flags

private theorem keeps_assign_index (h : Disciplined ctx fuel) (scope : ScopeId) (l lt : Location)
    (object key value : Expr) (op : Bytes) (flags : Flags) :
    Keeps (Within scope fun _ ↦ False)
      (execStmt ctx (fuel + 1) scope (.assign l (.index lt object key) op value) flags) := by
  have hj := joinable_within scope fun _ ↦ False
  simp only [execStmt]
  split
  · exact hj.keeps_raise _ l
  · next op' hop =>
    apply (h.keeps_expr scope object).bind hj
    intro container
    apply (h.keeps_expr scope key).bind hj
    intro k
    apply (h.keeps_expr scope value).bind hj
    intro new
    split
    · have hwrite (current : Value) :=
        keeps_write_index hj l lt op' container k new current flags
      split
      · exact (hj.keeps_pure _).bind hj hwrite
      · apply (hj.keeps_inspect _).bind hj
        intro r
        exact (hj.keeps_lift lt r).bind hj hwrite
    · exact hj.keeps_raise _ lt

private theorem keeps_forEach (h : Disciplined ctx fuel) (scope : ScopeId) (l : Location)
    (vars : LoopVars) (iterable : Expr) (body : List Stmt) (flags : Flags) :
    Keeps (Within scope fun _ ↦ False)
      (execStmt ctx (fuel + 1) scope (.forEach l vars iterable body) flags) := by
  have hj := joinable_within scope fun _ ↦ False
  have hloop (walk : Walk) : Keeps (Within scope fun _ ↦ False) (do
      return (← visitEach ctx fuel scope vars body walk flags.enterLoop).leaveLoop flags) :=
    (h.forEach scope vars body walk _).bind hj fun _ ↦ hj.keeps_pure _
  simp only [execStmt]
  apply (h.keeps_expr scope iterable).bind hj
  intro v
  split
  · apply (hj.keeps_inspect _).bind hj
    intro start
    cases start with
    | ok walk => exact hloop walk
    | error e => exact hj.keeps_throw _
  · apply (hj.keeps_inspect _).bind hj
    intro start
    cases start with
    | ok walk => exact hloop walk
    | error e => exact hj.keeps_throw _
  · exact hj.keeps_raise _ l

private theorem within_stmt_succ (h : Disciplined ctx fuel) (scope : ScopeId) (s : Stmt)
    (flags : Flags) (m : Machine) :
    m.Within scope (s.Introduces m.scopes scope)
      ((execStmt ctx (fuel + 1) scope s flags).after m) := by
  have hj := joinable_within scope fun _ ↦ False
  have hblock := keeps_runScoped h.keeps_stmt scope []
  -- All but declarations and assignments to identifiers gain nothing.
  have hnone (hs : Keeps (Within scope fun _ ↦ False) (execStmt ctx (fuel + 1) scope s flags)) :
      m.Within scope (s.Introduces m.scopes scope)
        ((execStmt ctx (fuel + 1) scope s flags).after m) :=
    (hs m).mono fun _ ↦ False.elim
  cases s with
  | declare l name value =>
    have hd := joinable_within scope (· = name)
    simp only [execStmt]
    refine Keeps.bind hd ((h.expr scope value).mono fun _ _ ↦ Apart.within) (fun v ↦ ?_) m
    exact (keeps_declare scope name v).bind hd fun _ ↦ hd.keeps_pure flags
  | assign l target op value =>
    cases target with
    | ident lt name =>
      simp only [execStmt]
      split
      · exact (joinable_within scope _).keeps_raise _ l m
      · next op' hop =>
        refine (h.within_assign scope l lt name op' value flags m).mono ?_
        rintro n ⟨rfl, rfl, hn⟩
        exact ⟨AssignOp.eq_of_ofText?_eq_plain op hop, rfl, hn⟩
    | index lt object key => exact hnone (h.keeps_assign_index scope l lt object key value op flags)
    | _ =>
      refine hnone ?_
      simp only [execStmt]
      split
      · exact hj.keeps_raise _ l
      · exact hj.keeps_raise _ l
  | absent =>
    refine hnone ?_
    simp only [execStmt]
    exact hj.keeps_pure flags
  | print l arguments =>
    refine hnone ?_
    simp only [execStmt, known_eq, pure_bind]
    apply (hj.keeps_mapM (h.keeps_expr scope) arguments).bind hj
    intro vs
    split
    · next b hb =>
      have hrun := b.keeps_run joinable_apart (ctx.services fuel) h.call vs { location := l }
      exact (hrun.mono fun _ _ ↦ Apart.within).bind hj fun _ ↦ hj.keeps_pure flags
    · exact hj.keeps_raise _ l
  | evaluate l e =>
    refine hnone ?_
    simp only [execStmt]
    exact (h.keeps_expr scope e).bind hj fun _ ↦ hj.keeps_pure flags
  | ifThen l c body =>
    refine hnone ?_
    simp only [execStmt]
    refine (h.keeps_expr scope c).bind hj fun v ↦ (within_condition scope l v).bind hj fun b ↦ ?_
    split
    · exact hblock body flags
    · exact hj.keeps_pure flags
  | ifElse l c body otherwise =>
    refine hnone ?_
    simp only [execStmt]
    refine (h.keeps_expr scope c).bind hj fun v ↦ (within_condition scope l v).bind hj fun b ↦ ?_
    split
    · exact hblock body flags
    · exact hblock otherwise flags
  | whileLoop l c body =>
    refine hnone ?_
    simp only [execStmt]
    exact (h.whileLoop scope l c body _).bind hj fun _ ↦ hj.keeps_pure _
  | forEach l vars iterable body => exact hnone (h.keeps_forEach scope l vars iterable body flags)
  | breakLoop l | continueLoop l =>
    refine hnone ?_
    simp only [execStmt]
    exact hj.keeps_pure _
  | returnValue l value =>
    refine hnone ?_
    simp only [execStmt]
    exact (h.keeps_expr scope value).bind hj fun v ↦ hj.keeps_pure _
  | function l name parameters body | bare l =>
    refine hnone ?_
    simp only [execStmt]
    exact hj.keeps_raise _ l

private theorem keeps_repeatWhile_succ (h : Disciplined ctx fuel) (scope : ScopeId) (l : Location)
    (c : Expr) (body : List Stmt) (flags : Flags) :
    Keeps (Within scope fun _ ↦ False)
      (repeatWhile ctx (fuel + 1) scope l c body flags) := by
  have hj := joinable_within scope fun _ ↦ False
  simp only [repeatWhile]
  refine (h.keeps_expr scope c).bind hj fun v ↦ (within_condition scope l v).bind hj fun b ↦ ?_
  split
  · apply (keeps_runScoped h.keeps_stmt scope [] body flags).bind hj
    intro flags
    split
    · exact hj.keeps_pure flags
    · exact h.whileLoop scope l c body flags.nextTurn
  · exact hj.keeps_pure flags

private theorem keeps_visitEach_succ (h : Disciplined ctx fuel) (scope : ScopeId) (vars : LoopVars)
    (body : List Stmt) (walk : Walk) (flags : Flags) :
    Keeps (Within scope fun _ ↦ False)
      (visitEach ctx (fuel + 1) scope vars body walk flags) := by
  have hj := joinable_within scope fun _ ↦ False
  simp only [visitEach]
  apply (hj.keeps_inspect _).bind hj
  intro visit
  split
  · exact hj.keeps_pure flags
  · exact hj.keeps_raise _ walk.location
  · next key value walk =>
    apply (keeps_runScoped h.keeps_stmt scope _ body flags).bind hj
    intro flags
    split
    · exact hj.keeps_pure flags
    · exact h.forEach scope vars body walk flags.nextTurn

private theorem keeps_withFrame {α : Type} {action : Exec α} (hk : Keeps Apart action)
    (callee : Bytes) (location : Location) :
    Keeps Apart (withFrame ctx callee location action) := by
  intro m
  rw [after_withFrame]
  split
  · exact joinable_apart.refl m
  · exact hk { m with depth := m.depth + 1 }

private theorem keeps_call_succ (h : Disciplined ctx fuel) (name : Bytes) (arguments : List Value)
    (site : Token) : Keeps Apart (callFunction ctx (fuel + 1) name arguments site) := by
  have hj := joinable_apart
  simp only [callFunction, known_eq, pure_bind]
  split
  · next f hf =>
    split
    · refine keeps_withFrame ?_ f.name site.location
      refine Keeps.bind hj ?_ fun flags ↦ hj.keeps_pure _
      exact keeps_runScoped_global h.keeps_stmt _ f.body {}
    · exact hj.keeps_raise _ site.location
  · split
    · next b hb =>
      exact keeps_withFrame (b.keeps_run hj (ctx.services fuel) h.call arguments site) name
        site.location
    · exact hj.keeps_raise _ site.location

end Disciplined

/-- Every evaluation keeps to its scope. -/
theorem disciplined (ctx : Context) (fuel : Nat) : Disciplined ctx fuel := by
  induction fuel with
  | zero => exact Disciplined.zero ctx
  | succ fuel ih =>
    exact ⟨ih.keeps_expr_succ, ih.within_stmt_succ, ih.keeps_repeatWhile_succ,
      ih.keeps_visitEach_succ, ih.keeps_call_succ⟩

/-- Whatever an expression or a call comes to, every scope but the global one has its old
bindings and every scope its old names. Whatever a statement comes to, no scope has lost a
name, and none has gained one but the statement's own scope the name that the statement
introduces; no other variables have changed but global ones and those in sight. -/
theorem scope_discipline (ctx : Context) (fuel : Nat) (scope : ScopeId) (m : Machine) :
    (∀ e i,
      let m' := (evalExpr ctx fuel scope e).after m
      (i ≠ .global → (m'.scopes.scope i).bindings = (m.scopes.scope i).bindings) ∧
        ∀ name, m'.scopes.binds i name = m.scopes.binds i name) ∧
    (∀ callee arguments site i,
      let m' := (callFunction ctx fuel callee arguments site).after m
      (i ≠ .global → (m'.scopes.scope i).bindings = (m.scopes.scope i).bindings) ∧
        ∀ name, m'.scopes.binds i name = m.scopes.binds i name) ∧
    ∀ s flags i,
      let m' := (execStmt ctx fuel scope s flags).after m
      (i ≠ .global → i ∉ m.scopes.chain scope →
        (m'.scopes.scope i).bindings = (m.scopes.scope i).bindings) ∧
      ∀ name, (m.scopes.binds i name → m'.scopes.binds i name) ∧
        (m'.scopes.binds i name →
          m.scopes.binds i name ∨ i = scope ∧ s.Introduces m.scopes scope name) := by
  have h := disciplined ctx fuel
  refine ⟨?_, ?_, ?_⟩
  · intro e i m'
    have he : Scopes.Frame _ _ _ _ := h.expr scope e m
    exact ⟨he.bindings_eq i, he.binds_eq i⟩
  · intro callee arguments site i m'
    have hc : Scopes.Frame _ _ _ _ := h.call callee arguments site m
    exact ⟨hc.bindings_eq i, hc.binds_eq i⟩
  · intro s flags i m'
    have hs : Scopes.Frame _ _ _ _ := h.stmt scope s flags m
    refine ⟨fun hg hc ↦ hs.bindings_eq i ?_, fun name ↦ ⟨hs.kept i name, hs.gains i name⟩⟩
    rintro (hi | hi)
    · exact hg hi
    · exact hc hi

end Scriptlet
