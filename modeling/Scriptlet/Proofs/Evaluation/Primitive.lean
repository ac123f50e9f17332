import Scriptlet.Proofs.Evaluation.Ending
import Scriptlet.Proofs.Value.Failure

/-!
# What is done in one piece

The pieces of a plan read the machine, change its heap, its scopes or its output, or fail; or
they are dealings with the host. None of them makes a call: they leave the number of active
calls alone, and none but a failure of the host's own is for want of room for another one.
-/

namespace Scriptlet

/-- A walk is refused because its container has changed, for no other reason. -/
theorem Walk.kind_of_visit?_eq_error (w : Walk) (h : Heap) (e : ScriptError)
    (he : w.visit? h = .error e) : e.kind = .iterationInvalidated := by
  have hadvance (c : Cursor) (cause : Cause) (hc : (c.advance h).1 = .invalidated cause) :
      cause.kind = .iterationInvalidated := by
    cases c with
    | array r length i =>
      simp only [Cursor.advance] at hc
      split at hc
      · cases hc
        rfl
      · split at hc <;> cases hc
    | dict r version i =>
      simp only [Cursor.advance] at hc
      split at hc
      · cases hc
        rfl
      · split at hc <;> cases hc
    | text rest ordinal => cases rest <;> cases hc
    | count bound i =>
      simp only [Cursor.advance] at hc
      split at hc <;> cases hc
  unfold visit? next at he
  split at he
  · cases he
  · next hn =>
    cases he
    split at hn
    · cases hn
    · split at hn
      · cases hn
      · next visit cursor _ hv =>
        cases hn
        exact hadvance _ _ (congrArg Prod.fst hv)
  · cases he

variable [Host]

namespace Exec

/-- A computation in the language that goes on in one piece: no call is made in it. -/
inductive Primitive : {α : Type} → Exec α → Prop where
  | pure {α : Type} (a : α) : Primitive (pure a : Exec α)
  | raise {α : Type} {cause : Cause} (l : Location) (h : cause.kind ≠ .stackOverflow) :
      Primitive (raise cause l : Exec α)
  | consult {α : Type} (f : Heap → Except ScriptError α)
      (hf : ∀ h e, f h = .error e → e.kind ≠ .stackOverflow) : Primitive (consult f)
  | newArray (elements : List Value) : Primitive (newArray elements)
  | newDict (d : Dictionary) : Primitive (newDict d)
  | modifyHeap (f : Heap → Heap) : Primitive (modifyHeap f)
  | lookup (scope : ScopeId) (name : Bytes) (l : Location) : Primitive (lookup scope name l)
  | declare (scope : ScopeId) (name : Bytes) (v : Value) : Primitive (declare scope name v)
  | bindAll (scope : ScopeId) (bindings : List (Bytes × Value)) :
      Primitive (bindAll scope bindings)
  | assign (scope : ScopeId) (name : Bytes) (v : Value) : Primitive (assign scope name v)
  | reply (site : Token) {respond : Heap → Except Cause Builtin.Response}
      (h : ∀ h, FailsWith Builtin.errorKinds (respond h)) :
      Primitive (Builtin.reply site respond)

/-- What passes between an evaluation and its host in one piece. -/
inductive Dealing (ctx : Context) : {α : Type} → Exec α → Prop where
  | fail (e : ScriptError) : Dealing ctx (throw (.error e) : Exec Value)
  | known : Dealing ctx (known ctx)
  | look : Dealing ctx (look ctx)
  | act (deed : View Host.Memory → Deed Host.Memory) : Dealing ctx (act ctx deed)
  | teach (l : Host.Teaching) : Dealing ctx (teach l)

/-- A computation that makes no call, of the language or of the host. -/
def Direct (ctx : Context) {α : Type} (x : Exec α) : Prop := Primitive x ∨ Dealing ctx x

section Primitives

variable {α : Type} {kinds : List ErrorKind}

namespace Primitive

private theorem lift (l : Location) {x : Except Cause α} (hx : FailsWith kinds x)
    (h : ErrorKind.stackOverflow ∉ kinds) : Primitive (lift l x) := by
  cases x with
  | ok a => exact pure a
  | error cause => exact raise l (hx.kind_ne h rfl)

private theorem operate (l : Location) {f : Heap → Except Cause α} (hf : ∀ h, FailsWith kinds (f h))
    (h : ErrorKind.stackOverflow ∉ kinds) : Primitive (operate l f) := by
  have he : Exec.operate l f =
      Exec.consult fun h ↦ (f h).mapError fun cause ↦ { cause, location := l } := by
    funext m
    simp only [Exec.operate, Bind.bind, EStateM.bind, Exec.inspect, Exec.consult]
    cases f m.heap <;> rfl
  rw [he]
  apply consult
  intro heap e
  cases hr : f heap with
  | ok a =>
    intro he
    cases he
  | error cause =>
    intro he
    cases he
    exact (hf heap).kind_ne h hr

private theorem startWalk (v : Value) (l : Location) :
    Primitive (Exec.consult fun h ↦ Walk.start h v l) := by
  apply consult
  intro h e he
  unfold Walk.start at he
  split at he
  · cases he
  · cases he
    exact ErrorKind.noConfusion

private theorem visit? (w : Walk) : Primitive (Exec.consult w.visit?) := by
  apply consult
  intro h e he
  rw [w.kind_of_visit?_eq_error h e he]
  exact ErrorKind.noConfusion

private theorem condition (l : Location) (v : Value) : Primitive (condition l v) := by
  cases v with
  | bool b => exact pure b
  | _ => exact raise l ErrorKind.noConfusion

end Primitive

namespace Direct

variable {ctx : Context} {x : Exec α} {m : Machine}

/-- Nothing that is done in one piece adds a call or takes one away. -/
theorem depth_eq (hx : Direct ctx x) (m : Machine) : (Ending.machine (x m)).depth = m.depth := by
  rcases hx with hx | hx
  · cases hx with
    | consult f hf =>
      simp only [Exec.consult]
      cases f m.heap <;> rfl
    | lookup scope name l =>
      simp only [Exec.lookup]
      cases m.scopes.lookup? scope name <;> rfl
    | @reply site respond h =>
      simp only [Builtin.reply]
      cases respond m.heap <;> rfl
    | _ => rfl
  · cases hx <;> rfl

end Direct

/-- What is done in the language in one piece does not fail for want of room. -/
theorem Primitive.kind_ne {x : Exec α} (hx : Primitive x) {m m' : Machine} {e : ScriptError}
    (h : x m = .error (.error e) m') : e.kind ≠ .stackOverflow := by
  cases hx with
  | raise l hk =>
    cases h
    exact hk
  | consult f hf =>
    simp only [Exec.consult] at h
    cases hr : f m.heap with
    | ok a =>
      rw [hr] at h
      cases h
    | error e' =>
      rw [hr] at h
      cases h
      exact hf _ _ hr
  | lookup scope name l =>
    simp only [Exec.lookup] at h
    cases hr : m.scopes.lookup? scope name with
    | some v =>
      rw [hr] at h
      cases h
    | none =>
      rw [hr] at h
      cases h
      exact ErrorKind.noConfusion
  | @reply site respond hrespond =>
    simp only [Builtin.reply] at h
    cases hr : respond m.heap with
    | ok r =>
      rw [hr] at h
      cases h
    | error cause =>
      rw [hr] at h
      cases h
      exact (hrespond m.heap).kind_ne (by decide) hr
  | _ => cases h

end Primitives
end Exec

open Exec

namespace Plan

/-- Whether every piece of a plan is of a sort; tasks and calls are not looked into. -/
def Pieces (P : {α : Type} → Exec α → Prop) {α : Type} : Plan α → Prop
  | .piece x => P x
  | .task _ => True
  | .call .. => True
  | .bind p rest => p.Pieces P ∧ ∀ a, (rest a).Pieces P
  | .inScope _ body => ∀ inner, (body inner).Pieces P
  | .attempt p => p.Pieces P

/-- Whether a plan does nothing but what is done in the language, apart from its tasks and its
calls. -/
abbrev Plain {α : Type} (p : Plan α) : Prop := p.Pieces Primitive

section Sorts

variable {P Q : {α : Type} → Exec α → Prop} {α β : Type}

/-- Pieces of one sort are of every wider sort. -/
theorem Pieces.mono {p : Plan α} (hp : p.Pieces P) (h : ∀ {β : Type} {x : Exec β}, P x → Q x) :
    p.Pieces Q := by
  induction p with
  | piece x => exact h hp
  | task t => trivial
  | call name arguments site => trivial
  | bind p rest ihp ihrest => exact ⟨ihp hp.1, fun a ↦ ihrest a (hp.2 a)⟩
  | inScope parent body ih => exact fun inner ↦ ih inner (hp inner)
  | attempt p ih => exact ih hp

/-- Sequences of pieces of a sort. -/
theorem sequential_pieces (hpure : ∀ {β : Type} (b : β), P (pure b : Exec β)) :
    Sequential (Pieces P) where
  pure := hpure
  bind hp hrest := ⟨hp, hrest⟩

end Sorts

variable {α β : Type}

/-- A sequence of plain plans is plain. -/
theorem sequential_plain : Sequential Plain := sequential_pieces Primitive.pure

/-- A value alone is plain. -/
theorem plain_pure (a : α) : (pure a : Plan α).Plain := Primitive.pure a

/-- One thing after the other. -/
theorem Plain.bind {p : Plan α} {rest : α → Plan β} (hp : p.Plain)
    (hrest : ∀ a, (rest a).Plain) : (p >>= rest).Plain := ⟨hp, hrest⟩

private theorem Plain.after {x : Exec α} {rest : α → Plan β} (hx : Primitive x)
    (hrest : ∀ a, (rest a).Plain) : (piece x >>= rest).Plain := ⟨hx, hrest⟩

private theorem Plain.given {t : Task α} {rest : α → Plan β} (hrest : ∀ a, (rest a).Plain) :
    (task t >>= rest).Plain := ⟨trivial, hrest⟩

/-- Evaluating expressions one after the other is plain. -/
theorem plain_evals (scope : ScopeId) (es : List Expr) : (each (eval scope) es).Plain :=
  sequential_plain.each fun _ _ ↦ trivial

private theorem plain_entry (scope : ScopeId) (l : Location) (e : Expr × Expr) :
    (entry scope l e).Plain := by
  obtain ⟨key, value⟩ := e
  refine Plain.given fun k ↦ ?_
  refine Plain.after (.lift _ (FailsWith.dictKey k) (by decide)) fun _ ↦ ?_
  exact Plain.given fun _ ↦ plain_pure _

private theorem plain_block (parent : ScopeId) (bindings : List (Bytes × Value)) (ss : List Stmt)
    (flags : Flags) : (block parent bindings ss flags).Plain :=
  fun inner ↦ Plain.after (Primitive.bindAll inner bindings) fun _ ↦
    sequential_plain.body fun _ _ _ ↦ trivial

end Plan

open Plan

/-- What is done for the value of an expression does not depend on what can be called. -/
theorem Expr.plain_plan (scope : ScopeId) (e : Expr) : (e.plan scope).Plain := by
  have hcondition (l : Location) (right : Expr) : (do
      return .bool (← piece (condition l (← eval scope right))) : Plan Value).Plain :=
    Plain.given fun b ↦ Plain.after (.condition l b) fun _ ↦ plain_pure _
  cases e with
  | absent | int | str | bool | none => exact plain_pure _
  | ident l name => exact .lookup scope name l
  | unary l op operand => exact Plain.given fun v ↦ .lift l (FailsWith.unary op v) (by decide)
  | binary l op left right =>
    refine Plain.given fun a ↦ ?_
    split
    · refine Plain.after (.condition l a) fun _ ↦ ?_
      split
      · exact hcondition l right
      · exact plain_pure _
    split
    · refine Plain.after (.condition l a) fun _ ↦ ?_
      split
      · exact plain_pure _
      · exact hcondition l right
    · exact Plain.given fun b ↦ .operate l (fun h ↦ FailsWith.binary h op a b) (by decide)
  | index l object key =>
    exact Plain.given fun container ↦ Plain.given fun k ↦
      .operate l (fun h ↦ FailsWith.read h container k) (by decide)
  | array l elements => exact (plain_evals scope elements).bind fun _ ↦ Primitive.newArray _
  | dict l entries =>
    exact (sequential_plain.each fun _ _ ↦ plain_entry scope l _).bind fun _ ↦ Primitive.newDict _
  | call l receiver callee arguments => exact (plain_evals scope _).bind fun _ ↦ trivial
  | bare l => exact .raise l ErrorKind.noConfusion

private theorem Stmt.plain_assignPlan (scope : ScopeId) (l : Location) (target : Expr)
    (op : AssignOp) (value : Expr) (flags : Flags) :
    (assignPlan scope l target op value flags).Plain := by
  have hcombine {current new : Value} {rest : Value → Plan Flags} (h : ∀ v, (rest v).Plain) :
      (piece (operate l fun h ↦ op.combine h current new) >>= rest).Plain :=
    Plain.after (.operate l (fun h ↦ FailsWith.combine h current new op) (by decide)) h
  cases target with
  | ident lt name =>
    have hstore (current : Value) : (do
        let new ← eval scope value
        let v ← piece (operate l fun h ↦ op.combine h current new)
        piece (Exec.assign scope name v)
        pure flags : Plan Flags).Plain :=
      Plain.given fun new ↦ hcombine fun v ↦
        Plain.after (.assign scope name v) fun _ ↦ plain_pure flags
    simp only [assignPlan]
    split
    · exact (plain_pure _).bind hstore
    · exact Plain.after (.lookup scope name lt) hstore
  | index lt object key =>
    refine Plain.given fun container ↦ Plain.given fun k ↦ Plain.given fun new ↦ ?_
    have hstore (current : Value) : (do
        let v ← piece (operate l fun h ↦ op.combine h current new)
        let heap ← piece (operate lt (·.write container k v))
        piece (modifyHeap fun _ ↦ heap)
        pure flags : Plan Flags).Plain :=
      hcombine fun v ↦ Plain.after
        (.operate lt (fun h ↦ FailsWith.write h container k v) (by decide)) fun heap ↦
          Plain.after (.modifyHeap _) fun _ ↦ plain_pure flags
    split
    · split
      · exact (plain_pure _).bind hstore
      · exact Plain.after
          (.operate lt (fun h ↦ FailsWith.read h container k) (by decide)) hstore
    · exact .raise lt ErrorKind.noConfusion
  | _ => exact .raise l ErrorKind.noConfusion

/-- Of all statements only one that prints needs to know what can be called. -/
theorem Stmt.plain_plan (scope : ScopeId) (s : Stmt) (flags : Flags)
    (hs : ∀ l es, s ≠ .print l es) (ctx : Context) : (s.plan ctx scope flags).Plain := by
  cases s with
  | absent | breakLoop | continueLoop => exact plain_pure _
  | declare l name value =>
    exact Plain.given fun v ↦ Plain.after (.declare scope name v) fun _ ↦ plain_pure _
  | assign l target text value =>
    simp only [plan]
    cases AssignOp.ofText? text with
    | none => exact .raise l ErrorKind.noConfusion
    | some op => exact plain_assignPlan scope l target op value flags
  | print l es => exact absurd rfl (hs l es)
  | evaluate l e => exact Plain.given fun _ ↦ plain_pure _
  | ifThen l c statements =>
    refine Plain.given fun v ↦ Plain.after (.condition l v) fun _ ↦ ?_
    split
    · exact plain_block _ _ _ _
    · exact plain_pure _
  | ifElse l c statements otherwise =>
    refine Plain.given fun v ↦ Plain.after (.condition l v) fun _ ↦ ?_
    split <;> exact plain_block _ _ _ _
  | whileLoop l c statements => exact ⟨trivial, fun _ ↦ plain_pure _⟩
  | forEach l vars iterable statements =>
    refine Plain.given fun v ↦ ?_
    have hloop : (do
        let walk ← piece (consult fun h ↦ Walk.start h v l)
        let inner ← task (.visits scope vars statements walk flags.enterLoop)
        pure (inner.leaveLoop flags) : Plan Flags).Plain :=
      Plain.after (.startWalk v l) fun _ ↦ ⟨trivial, fun _ ↦ plain_pure _⟩
    cases vars with
    | single name => exact hloop
    | pair keyName valueName =>
      cases v.type with
      | dictionary => exact hloop
      | _ => exact .raise l ErrorKind.noConfusion
  | returnValue l value => exact Plain.given fun _ ↦ plain_pure _
  | function l name _ _ => exact .raise l ErrorKind.noConfusion
  | bare l => exact .raise l ErrorKind.noConfusion

/-- What a function of the script does is plain. -/
theorem Function.plain_plan (f : Function) (arguments : List Value) : (f.plan arguments).Plain :=
  (plain_block _ _ _ _).bind fun _ ↦ plain_pure _

/-- A task that does not look at what can be called. -/
def Task.Plain {α : Type} : Task α → Prop
  | .stmt _ s _ => ∀ l es, s ≠ .print l es
  | .resume _ => False
  | _ => True

namespace Task.Plain

variable {α : Type} {t : Task α}

/-- What is done for such a task. -/
theorem plain_plan (ht : t.Plain) (ctx : Context) : (t.plan ctx).Plain := by
  cases t with
  | expr scope e => exact e.plain_plan scope
  | stmt scope s flags => exact s.plain_plan scope flags ht ctx
  | turns scope l c statements flags =>
    refine Plain.given fun v ↦ Plain.after (.condition l v) fun _ ↦ ?_
    split
    · refine (plain_block _ _ _ _).bind fun flags ↦ ?_
      split
      · exact plain_pure _
      · trivial
    · exact plain_pure _
  | visits scope vars statements walk flags =>
    refine Plain.after (.visit? walk) fun next ↦ ?_
    cases next with
    | none => exact plain_pure flags
    | some next =>
      refine (plain_block _ _ _ _).bind fun flags ↦ ?_
      split
      · exact plain_pure _
      · trivial
  | resume t => exact ht.elim

/-- The same is done whatever can be called. -/
theorem plan_eq (ht : t.Plain) (ctx ctx' : Context) : t.plan ctx = t.plan ctx' := by
  cases t with
  | stmt scope s flags =>
    cases s with
    | print l es => exact absurd rfl (ht l es)
    | _ => rfl
  | resume t => exact ht.elim
  | _ => rfl

end Task.Plain

section Directness

variable {ctx : Context} {α : Type}

private theorem sequential_direct : Sequential (Pieces (Direct ctx)) :=
  sequential_pieces fun b ↦ .inl (.pure b)

private theorem Request.direct_plan (request : Request Host.teaches) :
    (request.plan ctx).Pieces (Direct ctx) := by
  have hload (p : Program) (allowed : Host.teaches (.program p)) :
      (Plan.load p allowed).Pieces (Direct ctx) := by
    refine ⟨.inr (.teach _), fun _ ↦ ⟨?_, fun _ ↦ .inl (.pure _)⟩⟩
    exact sequential_direct.body fun _ _ _ ↦ trivial
  cases request with
  | invoke name arguments site => trivial
  | evaluate e => trivial
  | load p allowed => exact ⟨hload p allowed, fun _ ↦ .inl (.pure _)⟩
  | run p allowed entry =>
    refine ⟨hload p allowed, fun _ ↦ ⟨.inr .known, fun now ↦ ?_⟩⟩
    dsimp only
    split
    · trivial
    · exact .inl (.pure _)

private theorem Procedure.direct_plan (p : Host.Script) : (p.plan ctx).Pieces (Direct ctx) := by
  induction p with
  | answer v => exact .inl (.pure v)
  | fail e => exact .inr (.fail e)
  | look next ih => exact ⟨.inr .look, ih⟩
  | act deed next ih => exact ⟨.inr (.act deed), fun _ ↦ ih⟩
  | register name r allowed next ih => exact ⟨.inr (.teach _), fun _ ↦ ih⟩
  | ask request next ih => exact ⟨request.direct_plan, ih⟩
  | handOver name arguments site => trivial
  | proceed t => trivial

/-- What a built-in function does. -/
theorem Builtin.direct_plan (b : Builtin) (arguments : List Value) (site : Token) :
    (b.plan ctx arguments site).Pieces (Direct ctx) := by
  rcases b.native_or_host arguments with ⟨respond, hb⟩ | ⟨name, routine, rfl⟩
  · rw [hb.plan_eq]
    exact .inl (.reply site hb.failsWith)
  · exact Procedure.direct_plan _

/-- What a call is resolved to is direct. -/
theorem Context.direct_of_resolve {name : Bytes} {arguments : List Value} {site : Token}
    {lessons : List Host.Teaching} {callee : Callee}
    (h : ctx.resolve name arguments site lessons = .ok callee) :
    callee.body.Pieces (Direct ctx) := by
  unfold resolve at h
  split at h
  · next f _ =>
    split at h
    · cases h
      exact (f.plain_plan arguments).mono .inl
    · cases h
  · split at h
    · next b _ =>
      cases h
      exact b.direct_plan arguments site
    · cases h

/-- What a task does. -/
theorem Task.direct_plan (ctx : Context) (t : Task α) : (t.plan ctx).Pieces (Direct ctx) := by
  have hplain {t : Task α} (ht : t.Plain) : (t.plan ctx).Pieces (Direct ctx) :=
    (ht.plain_plan ctx).mono .inl
  cases t with
  | expr | turns | visits => exact hplain trivial
  | stmt scope s flags =>
    by_cases hs : ∃ l es, s = .print l es
    · obtain ⟨l, es, rfl⟩ := hs
      refine ⟨(plain_evals scope es).mono .inl, fun vs ↦ ⟨.inr .known, fun now ↦ ?_⟩⟩
      dsimp only
      split
      · next b _ => exact ⟨b.direct_plan vs _, fun _ ↦ .inl (.pure _)⟩
      · exact .inl (.raise l ErrorKind.noConfusion)
    · exact hplain fun l es h ↦ hs ⟨l, es, h⟩
  | resume t => exact Procedure.direct_plan _

/-- A call that is not resolved does not fail for want of room. -/
theorem Context.failsWith_resolve (ctx : Context) (name : Bytes) (arguments : List Value)
    (site : Token) (lessons : List Host.Teaching) :
    FailsWith [.argumentCountMismatch, .undefinedFunction]
      (ctx.resolve name arguments site lessons) := by
  unfold resolve
  split
  · exact .ite (.ok _) (.error rfl)
  · split
    · exact .ok _
    · exact .error rfl

end Directness
end Scriptlet
