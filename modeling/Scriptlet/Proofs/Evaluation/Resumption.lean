import Scriptlet.Proofs.Evaluation.Primitive

/-!
# Going on where another run ended

Nothing that is evaluated looks at what was written before, and what was taught before is as good
as known from the beginning. So a run that goes on where another one ended is the run that begins
afresh with all that is known by then, with its output and its lessons behind those of before.
-/

namespace Scriptlet

variable [Host]

/-- What is known after lessons in two parts. -/
theorem Context.after_append (ctx : Context) (before since : List Host.Teaching) :
    ctx.after (before ++ since) = (ctx.after before).after since := by
  simp only [after, List.foldl_append]

private theorem Context.maxDepth_after (ctx : Context) (lessons : List Host.Teaching) :
    (ctx.after lessons).maxDepth = ctx.maxDepth := by
  induction lessons generalizing ctx with
  | nil => rfl
  | cons l lessons ih =>
    refine (ih (ctx.learn l.val)).trans ?_
    cases l.val <;> rfl

/-- The machine with its output and its lessons behind those of before. -/
def Machine.behind (written : Array UInt8) (lessons : List Host.Teaching) (m : Machine) :
    Machine :=
  { m with output := written ++ m.output, lessons := lessons ++ m.lessons }

namespace Exec

variable {α β : Type} {written : Array UInt8} {lessons : List Host.Teaching}

/-- The same ending, with output and lessons behind those of before. -/
def Ending.behind (written : Array UInt8) (lessons : List Host.Teaching) : Ending α → Ending α
  | .ok a m => .ok a (m.behind written lessons)
  | .error stop m => .error stop (m.behind written lessons)

/-- One computation goes on where another run ended as a second one does that begins afresh. -/
def Resumes (written : Array UInt8) (lessons : List Host.Teaching) (x y : Exec α) : Prop :=
  ∀ m, x (m.behind written lessons) = Ending.behind written lessons (y m)

namespace Resumes

variable {x y : Exec α} {f g : α → Exec β}

/-- Sequences go on as their parts do. -/
theorem bind (hx : Resumes written lessons x y) (hf : ∀ a, Resumes written lessons (f a) (g a)) :
    Resumes written lessons (x >>= f) (y >>= g) := by
  intro m
  simp only [Bind.bind, EStateM.bind, hx m]
  cases y m with
  | ok a m₁ => exact hf a m₁
  | error stop m₁ => rfl

private theorem always (hx : Resumes written lessons x y) (g : Machine → Machine)
    (hg : ∀ m, g (m.behind written lessons) = (g m).behind written lessons) :
    Resumes written lessons (andThenAlways x g) (andThenAlways y g) := by
  intro m
  rw [andThenAlways, andThenAlways, hx m]
  cases y m with
  | ok a m₁ => exact congrArg (EStateM.Result.ok a) (hg m₁)
  | error stop m₁ => exact congrArg (EStateM.Result.error stop) (hg m₁)

private theorem withScope {x y : ScopeId → Exec α} (parent : ScopeId)
    (hx : ∀ inner, Resumes written lessons (x inner) (y inner)) :
    Resumes written lessons (withScope parent x) (withScope parent y) := by
  intro m
  let inner := (m.scopes.enter (some parent)).1
  exact (hx inner).always (fun m ↦ { m with scopes := m.scopes.leave inner }) (fun _ ↦ rfl)
    { m with scopes := (m.scopes.enter (some parent)).2 }

private theorem attempt (hx : Resumes written lessons x y) :
    Resumes written lessons (attempt x) (attempt y) := by
  intro m
  rw [Exec.attempt, Exec.attempt, hx m]
  cases y m with
  | ok a m₁ => rfl
  | error stop m₁ => cases stop <;> rfl

private theorem withFrame (hx : Resumes written lessons x y) {ctx ctx' : Context}
    (hd : ctx'.maxDepth = ctx.maxDepth) (callee : Bytes) (l : Location) :
    Resumes written lessons (withFrame ctx callee l x) (withFrame ctx' callee l y) := by
  intro m
  have hdepth : (m.behind written lessons).depth = m.depth := rfl
  simp only [Exec.withFrame, hdepth, hd]
  by_cases full : ctx.maxDepth ≤ m.depth
  · rw [if_pos full, if_pos full]
    rfl
  · rw [if_neg full, if_neg full]
    exact hx.always (fun m ↦ { m with depth := m.depth - 1 }) (fun _ ↦ rfl)
      { m with depth := m.depth + 1 }

end Resumes

omit [Host] in
private theorem behind_append (output : Array UInt8) (text : Bytes) :
    (written ++ output).appendList text = written ++ output.appendList text := by
  apply Array.toList_inj.mp
  simp only [Array.appendList_eq_append, Array.toList_append, Array.toList_appendList,
    List.append_assoc]

/-- What is done in the language in one piece does not look at what went before. -/
theorem Primitive.resumes {x : Exec α} (hx : Primitive x) : Resumes written lessons x x := by
  cases hx with
  | consult f hf =>
    intro m
    simp only [Exec.consult, Machine.behind]
    cases f m.heap <;> rfl
  | lookup scope name l =>
    intro m
    simp only [Exec.lookup, Machine.behind]
    cases m.scopes.lookup? scope name <;> rfl
  | @reply site respond h =>
    intro m
    simp only [Builtin.reply, Machine.behind]
    cases respond m.heap with
    | ok r => simp only [behind_append, Ending.behind, Machine.behind]
    | error cause => rfl
  | _ => exact fun _ ↦ rfl

private theorem view_behind (ctx : Context) (m : Machine) :
    view ctx (m.behind written lessons) = view (ctx.after lessons) m := by
  simp only [view, Machine.behind, ctx.after_append]

private theorem resumes_act (ctx : Context) (deed : View Host.Memory → Deed Host.Memory) :
    Resumes written lessons (act ctx deed) (act (ctx.after lessons) deed) := by
  intro m
  simp only [act, view_behind]
  simp only [Machine.behind, behind_append, Ending.behind]

private theorem resumes_teach (l : Host.Teaching) :
    Resumes written lessons (teach l) (teach l) := by
  intro m
  simp only [teach, Machine.behind, Ending.behind, List.append_assoc]

/-- What can be called behind some lessons is what they have made of the context. -/
theorem resumes_known (ctx : Context) :
    Resumes written lessons (known ctx) (known (ctx.after lessons)) := by
  intro m
  simp only [known, Machine.behind, ctx.after_append, Ending.behind]

end Exec

open Exec Plan

namespace Plan

/-- Two plans are put together in the same way, of pieces that do the same after these lessons. -/
inductive Rebased (lessons : List Host.Teaching) : {α : Type} → Plan α → Plan α → Prop where
  | piece {α : Type} {x y : Exec α} (h : ∀ written, Resumes written lessons x y) :
      Rebased lessons (.piece x) (.piece y)
  | task {α : Type} (t : Task α) : Rebased lessons (.task t) (.task t)
  | call (name : Bytes) (arguments : List Value) (site : Token) :
      Rebased lessons (.call name arguments site) (.call name arguments site)
  | bind {α β : Type} {p q : Plan α} {rest rest' : α → Plan β} (hp : Rebased lessons p q)
      (hrest : ∀ a, Rebased lessons (rest a) (rest' a)) :
      Rebased lessons (.bind p rest) (.bind q rest')
  | inScope {α : Type} (parent : ScopeId) {body body' : ScopeId → Plan α}
      (h : ∀ inner, Rebased lessons (body inner) (body' inner)) :
      Rebased lessons (.inScope parent body) (.inScope parent body')
  | attempt {α : Type} {p q : Plan α} (h : Rebased lessons p q) :
      Rebased lessons (.attempt p) (.attempt q)

variable {ctx : Context} {lessons : List Host.Teaching} {α β : Type}

/-- What is done in the language is the same, whatever was taught. -/
theorem Plain.rebased {p : Plan α} (hp : p.Plain) : p.Rebased lessons p := by
  induction p with
  | piece x => exact .piece fun _ ↦ Primitive.resumes hp
  | task t => exact .task t
  | call name arguments site => exact .call name arguments site
  | bind p rest ihp ihrest => exact .bind (ihp hp.1) fun a ↦ ihrest a (hp.2 a)
  | inScope parent body ih => exact .inScope parent fun inner ↦ ih inner (hp inner)
  | attempt p ih => exact .attempt (ih hp)

end Plan

section Runs

variable {ctx : Context} {lessons : List Host.Teaching} {written : Array UInt8} {fuel : Nat}
  {α : Type}

private theorem Request.rebased_plan (request : Request Host.teaches) :
    (request.plan ctx).Rebased lessons (request.plan (ctx.after lessons)) := by
  have hload (p : Program) (allowed : Host.teaches (.program p)) :
      (Plan.load p allowed).Rebased lessons (Plan.load p allowed) :=
    .bind (.piece fun _ ↦ resumes_teach _) fun _ ↦
      Plain.rebased (Plain.bind (sequential_plain.body fun _ _ _ ↦ trivial) fun _ ↦ plain_pure _)
  cases request with
  | invoke name arguments site => exact .call ..
  | evaluate e => exact .task _
  | load p allowed => exact .bind (hload p allowed) fun _ ↦ (plain_pure _).rebased
  | run p allowed entry =>
    refine .bind (hload p allowed) fun _ ↦ .bind (.piece fun _ ↦ resumes_known ctx) fun now ↦ ?_
    split
    · exact .call ..
    · exact (plain_pure _).rebased

private theorem Procedure.rebased_plan (p : Host.Script) :
    (p.plan ctx).Rebased lessons (p.plan (ctx.after lessons)) := by
  induction p with
  | answer v => exact (plain_pure v).rebased
  | fail e => exact .piece fun _ _ ↦ rfl
  | look next ih =>
    refine .bind (.piece fun written m ↦ ?_) ih
    simp only [Exec.look, view_behind, Ending.behind]
  | act deed next ih => exact .bind (.piece fun _ ↦ resumes_act ctx deed) fun _ ↦ ih
  | register name r allowed next ih => exact .bind (.piece fun _ ↦ resumes_teach _) fun _ ↦ ih
  | ask request next ih => exact .bind (.attempt request.rebased_plan) ih
  | handOver name arguments site => exact .call ..
  | proceed t => exact .task _

private theorem Builtin.rebased_plan (b : Builtin) (arguments : List Value) (site : Token) :
    (b.plan ctx arguments site).Rebased lessons
      (b.plan (ctx.after lessons) arguments site) := by
  rcases b.native_or_host arguments with ⟨respond, hb⟩ | ⟨name, routine, rfl⟩
  · rw [hb.plan_eq, hb.plan_eq]
    exact .piece fun _ ↦ (Primitive.reply site hb.failsWith).resumes
  · exact Procedure.rebased_plan _

private theorem Task.rebased_plan (t : Task α) :
    (t.plan ctx).Rebased lessons (t.plan (ctx.after lessons)) := by
  have hplain {t : Task α} (ht : t.Plain) :
      (t.plan ctx).Rebased lessons (t.plan (ctx.after lessons)) := by
    rw [ht.plan_eq (ctx.after lessons) ctx]
    exact (ht.plain_plan ctx).rebased
  cases t with
  | expr | turns | visits => exact hplain trivial
  | stmt scope s flags =>
    by_cases hs : ∃ l es, s = .print l es
    · obtain ⟨l, es, rfl⟩ := hs
      refine .bind (plain_evals scope es).rebased fun vs ↦
        .bind (.piece fun _ ↦ resumes_known ctx) fun now ↦ ?_
      split
      · exact .bind (Builtin.rebased_plan _ vs _) fun _ ↦ (plain_pure _).rebased
      · exact .piece fun _ _ ↦ rfl
    · exact hplain fun l es h ↦ hs ⟨l, es, h⟩
  | resume t => exact Procedure.rebased_plan _

private theorem Context.rebased_resolve (ctx : Context) (name : Bytes) (arguments : List Value)
    (site : Token) (lessons since : List Host.Teaching) :
    (∃ cause, ctx.resolve name arguments site (lessons ++ since) = .error cause ∧
      (ctx.after lessons).resolve name arguments site since = .error cause) ∨
    ∃ label body body', ctx.resolve name arguments site (lessons ++ since) = .ok ⟨label, body⟩ ∧
      (ctx.after lessons).resolve name arguments site since = .ok ⟨label, body'⟩ ∧
      body.Rebased lessons body' := by
  simp only [resolve, ctx.after_append]
  cases ((ctx.after lessons).after since).functions[name]? with
  | some f =>
    dsimp only
    split
    · exact .inr ⟨_, _, _, rfl, rfl, (f.plain_plan arguments).rebased⟩
    · exact .inl ⟨_, rfl, rfl⟩
  | none =>
    cases ((ctx.after lessons).after since).builtins[name]? with
    | some b => exact .inr ⟨_, _, _, rfl, rfl, b.rebased_plan arguments site⟩
    | none => exact .inl ⟨_, rfl, rfl⟩

private theorem Plan.Rebased.resumes {p q : Plan α} (hp : p.Rebased lessons q)
    (htask : ∀ {β : Type} (t : Task β),
      Resumes written lessons (t.run ctx fuel) (t.run (ctx.after lessons) fuel))
    (hcall : ∀ name arguments site, Resumes written lessons
      (callFunction ctx fuel name arguments site)
      (callFunction (ctx.after lessons) fuel name arguments site)) :
    Resumes written lessons (p.run ctx fuel) (q.run (ctx.after lessons) fuel) := by
  induction hp with
  | piece h => exact h written
  | task t => exact htask t
  | call name arguments site => exact hcall name arguments site
  | bind _ _ ihp ihrest => exact ihp.bind ihrest
  | inScope parent _ ih => exact Resumes.withScope parent ih
  | attempt _ ih => exact ih.attempt

private theorem resumes_fuel (ctx : Context) (written : Array UInt8)
    (lessons : List Host.Teaching) (fuel : Nat) :
    (∀ {β : Type} (t : Task β),
      Resumes written lessons (t.run ctx fuel) (t.run (ctx.after lessons) fuel)) ∧
    ∀ name arguments site, Resumes written lessons (callFunction ctx fuel name arguments site)
      (callFunction (ctx.after lessons) fuel name arguments site) := by
  induction fuel with
  | zero =>
    constructor
    · intro β t
      rw [t.run_zero, t.run_zero]
      exact fun _ ↦ rfl
    · intro name arguments site
      rw [callFunction, callFunction]
      exact fun _ ↦ rfl
  | succ fuel ih =>
    constructor
    · intro β t
      rw [t.run_succ, t.run_succ]
      exact t.rebased_plan.resumes ih.1 ih.2
    · intro name arguments site m
      rw [callFunction_succ, callFunction_succ]
      rcases ctx.rebased_resolve name arguments site lessons m.lessons with
        ⟨cause, h, h'⟩ | ⟨label, body, body', h, h', hbody⟩
      · simp only [Machine.behind, h, h']
        rfl
      · simp only [Machine.behind, h, h']
        exact (hbody.resumes ih.1 ih.2).withFrame (ctx.maxDepth_after lessons) _ _ m

/-- A call goes on where another run ended as it begins afresh with what is known by then. -/
theorem resumes_callFunction (name : Bytes) (arguments : List Value) (site : Token) :
    Resumes written lessons (callFunction ctx fuel name arguments site)
      (callFunction (ctx.after lessons) fuel name arguments site) :=
  (resumes_fuel ctx written lessons fuel).2 name arguments site

end Runs
end Scriptlet
