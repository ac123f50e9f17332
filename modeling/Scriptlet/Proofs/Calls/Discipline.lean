import Scriptlet.Proofs.Evaluation.Moment
import Scriptlet.Proofs.Evaluation.Operations

/-!
# Frames of calls

A call that is resolved, to a function of the script or to a built-in one, is given a frame
while its body runs, if there are fewer than the limit. Whatever an evaluator is asked for, and
whatever host functions do meanwhile, no moment of the run has more active calls than the limit,
and each moment ends with as many as it began with, however it ends. A resolved call that finds
no room is refused: it fails on the spot. A host function may catch that and go on.
-/

namespace Scriptlet

open Exec Plan

section Hosts

variable [Host]

/-- The statements of a program do nothing but what is done in the language. -/
theorem Plan.plain_ofProgram (p : Option Program) : (ofProgram p).Plain := by
  cases p with
  | none => exact plain_pure ()
  | some p => exact Plain.bind (sequential_plain.body fun _ _ _ ↦ trivial) fun _ ↦ plain_pure ()

section Balance

variable {ctx : Context} {α : Type}

private theorem Plan.depth_of_direct (fuel : Nat) (p : Plan α) (hp : p.Pieces (Direct ctx))
    (htask : ∀ {β : Type} (t : Task β) m, (Ending.machine (t.run ctx fuel m)).depth = m.depth)
    (hcall : ∀ name arguments site m,
      (Ending.machine (callFunction ctx fuel name arguments site m)).depth = m.depth)
    (m : Machine) : (Ending.machine (p.run ctx fuel m)).depth = m.depth := by
  induction p generalizing m with
  | piece x => exact Direct.depth_eq hp m
  | task t => exact htask t m
  | call name arguments site => exact hcall name arguments site m
  | bind p rest ihp ihrest =>
    simp only [run, Bind.bind, EStateM.bind]
    have hm := ihp hp.1 m
    cases hr : p.run ctx fuel m with
    | ok a m₁ =>
      rw [hr] at hm
      exact (ihrest a (hp.2 a) m₁).trans hm
    | error stop m₁ =>
      rw [hr] at hm
      exact hm
  | inScope parent body ih =>
    have hm := ih (m.scopes.enter (some parent)).1 (hp _)
      { m with scopes := (m.scopes.enter (some parent)).2 }
    simp only [run, withScope, andThenAlways]
    cases hr : (body (m.scopes.enter (some parent)).1).run ctx fuel
        { m with scopes := (m.scopes.enter (some parent)).2 } <;>
      · rw [hr] at hm
        exact hm
  | attempt p ih =>
    have hm := ih hp m
    simp only [run, Exec.attempt]
    cases hr : p.run ctx fuel m with
    | ok a m₁ =>
      rw [hr] at hm
      exact hm
    | error stop m₁ =>
      rw [hr] at hm
      cases stop <;> exact hm

private theorem depth_fuel (ctx : Context) (fuel : Nat) :
    (∀ {β : Type} (t : Task β) m, (Ending.machine (t.run ctx fuel m)).depth = m.depth) ∧
      ∀ name arguments site m,
        (Ending.machine (callFunction ctx fuel name arguments site m)).depth = m.depth := by
  induction fuel with
  | zero =>
    constructor
    · intro β t m
      rw [t.run_zero]
      rfl
    · intro name arguments site m
      rw [callFunction]
      rfl
  | succ fuel ih =>
    constructor
    · intro β t m
      rw [t.run_succ]
      exact Plan.depth_of_direct fuel _ (t.direct_plan ctx) ih.1 ih.2 m
    · intro name arguments site m
      rw [callFunction_succ]
      cases hc : ctx.resolve name arguments site m.lessons with
      | error cause => rfl
      | ok callee =>
        simp only [withFrame]
        split
        · rfl
        · -- The frame that is pushed before the body is popped after it.
          have hm := Plan.depth_of_direct fuel callee.body (Context.direct_of_resolve hc) ih.1 ih.2
            { m with depth := m.depth + 1 }
          simp only [andThenAlways]
          cases hr : callee.body.run ctx fuel { m with depth := m.depth + 1 } <;>
            · rw [hr] at hm
              exact congrArg (· - 1) hm

/-- Whatever is carried out, and however it ends, every frame that was pushed is popped. -/
theorem Plan.depth_run (ctx : Context) (fuel : Nat) (p : Plan α) (hp : p.Pieces (Direct ctx))
    (m : Machine) : (Ending.machine (p.run ctx fuel m)).depth = m.depth :=
  p.depth_of_direct fuel hp (depth_fuel ctx fuel).1 (depth_fuel ctx fuel).2 m

end Balance

namespace Moment

variable {ctx : Context} {p q : Moment}

private theorem Enters.depth_cases (h : Enters ctx p q) (hp : p.plan.Pieces (Direct ctx)) :
    q.machine.depth = p.machine.depth ∨
      p.machine.depth < ctx.maxDepth ∧ q.machine.depth = p.machine.depth + 1 := by
  cases h with
  | first fuel x rest m => exact Or.inl rfl
  | next rest done =>
    rename_i fuel x m m₁ a
    have hm := x.depth_run ctx fuel hp.1 m
    rw [done] at hm
    exact Or.inl hm
  | scope fuel parent body m => exact Or.inl rfl
  | task fuel t m => exact Or.inl rfl
  | call fuel m resolved room => exact Or.inr ⟨room, rfl⟩

/-- No moment of a run has more active calls than the limit. -/
theorem Meets.depth_le (h : Meets ctx p q) (hp : p.plan.Pieces (Direct ctx))
    (hd : p.machine.depth ≤ ctx.maxDepth) : q.machine.depth ≤ ctx.maxDepth := by
  induction h with
  | refl => exact hd
  | tail hmet hstep ih =>
    rcases hstep with hentered | ⟨fuel, x, m⟩
    · rcases hentered.depth_cases (Meets.direct hmet hp) with he | ⟨hlt, he⟩
      · rw [he]
        exact ih
      · rw [he]
        exact hlt
    · exact ih

section Call

variable {name : Bytes} {arguments : List Value} {site : Token} {fuel : Nat} {m : Machine}

/-- From a call nothing is entered but the body of what it is resolved to, in a new frame. -/
theorem enters_call_iff :
    Enters ctx ⟨fuel + 1, .call name arguments site, m⟩ q ↔
      ∃ callee, ctx.resolve name arguments site m.lessons = .ok callee ∧ m.depth < ctx.maxDepth ∧
        q = ⟨fuel, callee.body, { m with depth := m.depth + 1 }⟩ := by
  constructor
  · intro h
    cases h with
    | call fuel m resolved room => exact ⟨_, resolved, room, rfl⟩
  · rintro ⟨callee, resolved, room, rfl⟩
    exact .call fuel m resolved room

private theorem Tries.isTrial (h : Tries p q) : p.plan.IsTrial := by
  cases h
  exact trivial

private theorem eq_of_meets_call
    (hnone : ∀ q, ¬ Enters ctx ⟨fuel + 1, .call name arguments site, m⟩ q)
    (h : Meets ctx ⟨fuel + 1, .call name arguments site, m⟩ q) :
    q = ⟨fuel + 1, .call name arguments site, m⟩ := by
  rcases Relation.ReflTransGen.cases_head h with rfl | ⟨r, hentered | htried, -⟩
  · rfl
  · exact absurd hentered (hnone r)
  · exact htried.isTrial.elim

end Call

/-- The moment is a resolved call that finds the greatest number of calls active. -/
inductive Refused (ctx : Context) : Moment → Prop where
  | intro {name : Bytes} {arguments : List Value} {site : Token} {callee : Callee} (fuel : Nat)
      (m : Machine) (resolved : ctx.resolve name arguments site m.lessons = .ok callee)
      (full : ctx.maxDepth ≤ m.depth) : Refused ctx ⟨fuel + 1, .call name arguments site, m⟩

/-- In the moment a host function fails with an error of its own. -/
inductive HostFails (ctx : Context) (e : ScriptError) : Moment → Prop where
  | intro (fuel : Nat) (m : Machine) :
      HostFails ctx e ⟨fuel, (Procedure.fail e : Host.Script).plan ctx, m⟩

/-- A run fails for want of room if and only if, without its being caught, a call is refused or a
host function fails in this way. -/
theorem stopsWith_overflow_iff (hp : p.plan.Pieces (Direct ctx)) :
    (∃ e : ScriptError, e.kind = .stackOverflow ∧ p.StopsWith ctx (.error e)) ↔
      ∃ q, Passes ctx p q ∧
        (Refused ctx q ∨ ∃ e : ScriptError, e.kind = .stackOverflow ∧ HostFails ctx e q) := by
  constructor
  · rintro ⟨e, hk, hs⟩
    obtain ⟨q, hq, horigin⟩ := hs.exists_origin
    refine ⟨q, hq, ?_⟩
    cases horigin with
    | piece fuel m fails =>
      rcases hq.meets.direct hp with hx | hx
      · exact absurd hk (hx.kind_ne fails)
      · cases hx with
        | fail e' =>
          cases fails
          exact .inr ⟨e, hk, .intro fuel _⟩
        | _ => cases fails
    | unresolved fuel m hc =>
      exact absurd hk ((ctx.failsWith_resolve _ _ _ _).kind_ne (by decide) hc)
    | refused fuel m resolved full => exact .inl (.intro fuel m resolved full)
  · rintro ⟨q, hq, ⟨fuel, m, resolved, full⟩ | ⟨e, hk, ⟨fuel, m⟩⟩⟩
    · exact ⟨_, rfl, hq.stops ⟨m, ending_call_of_full resolved full⟩⟩
    · exact ⟨e, hk, hq.stops ⟨m, rfl⟩⟩

end Moment

/-- The kind of the error that an operation ended with, if it did. -/
def Outcome.errorKind? {α : Type} (o : Outcome α) : Option ErrorKind :=
  match o.result with
  | .error (.error e) => some e.kind
  | _ => none

namespace Demand

/-- The moment in which an evaluator sets about what it is asked for. -/
def start (d : Demand) (ev : Evaluator) (h : Heap) : Moment where
  fuel := ampleFuel
  plan := d.plan (d.prepare ev).context
  machine := (d.prepare ev).machine h

private theorem direct_plan (d : Demand) (ctx : Context) : (d.plan ctx).Pieces (Direct ctx) := by
  cases d with
  | load p => exact ((plain_ofProgram p).bind fun _ ↦ plain_pure _).mono .inl
  | run p main =>
    refine ⟨(plain_ofProgram p).mono .inl, fun _ ↦ ⟨.inr .known, fun now ↦ ?_⟩⟩
    dsimp only
    split
    · trivial
    · exact .inl (.pure _)
  | invoke name arguments site => trivial
  | evaluate e => trivial
  | lookup name => exact .inl (.lookup _ _ _)
  | declare name v => exact ⟨.inl (.declare _ _ _), fun _ ↦ .inl (.pure _)⟩
  | register name r => exact .inl (.pure _)

private theorem depth_prepare (d : Demand) (ev : Evaluator) : (d.prepare ev).depth = ev.depth := by
  cases d with
  | load p | run p main => cases p <;> rfl
  | _ => rfl

private theorem maxDepth_prepare (d : Demand) (ev : Evaluator) :
    (d.prepare ev).context.maxDepth = ev.context.maxDepth := by
  cases d with
  | load p | run p main => cases p <;> rfl
  | _ => rfl

/-- Whatever an evaluator is asked for, and however that ends, it is left with as many active
calls as it had. -/
theorem depth_perform (d : Demand) (ev : Evaluator) (h : Heap) :
    (d.perform ev h).evaluator.depth = ev.depth := by
  rw [d.perform_eq, Evaluator.carryOut, Evaluator.perform_eq, ← d.depth_prepare ev]
  exact Plan.depth_run _ _ _ (d.direct_plan _) ((d.prepare ev).machine h)

open Moment

/-- Whatever an evaluator is asked for that has no more active calls than its limit `M` allows,
and whatever host functions do meanwhile, at every moment of the run there are at most `M`; each
moment, however it ends, leaves as many as it found, and so does the whole. From a resolved call
that finds room the body is entered, with one more frame, and nothing else. A resolved call that
finds `M` calls active fails for want of room on the spot, with the machine as it was; nothing
else is met from it, and no other call fails itself in this way. The whole fails for want of room
if and only if a call is refused, or a host function fails so of its own accord, and no host
function catches it. -/
theorem call_discipline (d : Demand) (ev : Evaluator) (h : Heap)
    (hd : ev.depth ≤ ev.context.maxDepth) :
    let M := ev.context.maxDepth
    let ctx := (d.prepare ev).context
    let start := d.start ev h
    d.perform ev h = (d.prepare ev).outcome (start.ending ctx) ∧
      (d.perform ev h).evaluator.depth = ev.depth ∧
      (∀ q, Meets ctx start q →
        q.machine.depth ≤ M ∧ (Ending.machine (q.ending ctx)).depth = q.machine.depth) ∧
      (∀ fuel name arguments site m,
        let q : Moment := ⟨fuel + 1, .call name arguments site, m⟩
        match ctx.resolve name arguments site m.lessons with
        | .ok callee =>
          if M ≤ m.depth then
            q.ending ctx = .error (.error ⟨.depthExceeded M callee.label, site.location⟩) m ∧
              ∀ r, Meets ctx q r → r = q
          else
            ∀ r, Enters ctx q r ↔ r = ⟨fuel, callee.body, { m with depth := m.depth + 1 }⟩
        | .error cause =>
          q.ending ctx = .error (.error ⟨cause, site.location⟩) m ∧
            cause.kind ≠ .stackOverflow ∧ ∀ r, Meets ctx q r → r = q) ∧
      ((d.perform ev h).errorKind? = some .stackOverflow ↔ ∃ q, Passes ctx start q ∧
        (Refused ctx q ∨ ∃ e : ScriptError, e.kind = .stackOverflow ∧ HostFails ctx e q)) := by
  intro M ctx start
  have hdirect : start.plan.Pieces (Direct ctx) := d.direct_plan ctx
  have hlimit : ctx.maxDepth = M := d.maxDepth_prepare ev
  have hperform : d.perform ev h = (d.prepare ev).outcome (start.ending ctx) := by
    rw [d.perform_eq, Evaluator.carryOut, Evaluator.perform_eq]
    rfl
  refine ⟨hperform, d.depth_perform ev h, ?_, ?_, ?_⟩
  · intro q hq
    refine ⟨?_, Plan.depth_run ctx _ _ (hq.direct hdirect) _⟩
    rw [← hlimit]
    apply hq.depth_le hdirect
    rw [hlimit]
    exact Nat.le_trans (Nat.le_of_eq (d.depth_prepare ev)) hd
  · intro fuel name arguments site m q
    cases hc : ctx.resolve name arguments site m.lessons with
    | error cause =>
      refine ⟨ending_call_of_unresolved hc,
        (ctx.failsWith_resolve _ _ _ _).kind_ne (by decide) hc, fun r ↦ eq_of_meets_call ?_⟩
      intro r hr
      obtain ⟨callee, hc', -⟩ := enters_call_iff.mp hr
      cases hc.symm.trans hc'
    | ok callee =>
      dsimp only
      rw [← hlimit]
      split
      · next full =>
        refine ⟨ending_call_of_full hc full, fun r ↦ eq_of_meets_call fun r hr ↦ ?_⟩
        obtain ⟨_, -, room, -⟩ := enters_call_iff.mp hr
        exact absurd full (Nat.not_le.mpr room)
      · next room =>
        intro r
        rw [enters_call_iff]
        constructor
        · rintro ⟨callee', hc', -, rfl⟩
          cases hc.symm.trans hc'
          rfl
        · rintro rfl
          exact ⟨callee, hc, Nat.lt_of_not_le room, rfl⟩
  · rw [← stopsWith_overflow_iff hdirect, hperform]
    simp only [Outcome.errorKind?, Evaluator.outcome, StopsWith]
    cases start.ending ctx with
    | ok v m => simp [Ending.result]
    | error stop m =>
      cases stop with
      | error e => simp [Ending.result]
      | outOfFuel => simp [Ending.result]

end Demand
end Hosts

/-- A host whose functions each call a function, and call it once more if that fails for want of
room. It keeps in mind how often this has happened. -/
abbrev Host.persistent : Host where
  Routine := Bytes
  Memory := Nat
  Thread := Empty
  teaches _ := False
  initial := 0
  serve callee _ _ site :=
    let attempt (next : Procedure Bytes Nat Empty fun _ ↦ False) :
        Procedure Bytes Nat Empty fun _ ↦ False :=
      .ask (.invoke callee [] site) fun
        | .ok v => .answer v
        | .error e =>
          if e.kind = .stackOverflow then
            .act (fun v ↦ { heap := v.heap, memory := v.memory + 1 }) next
          else .fail e
    attempt (attempt (.answer .none))
  resume t := t.elim

/-- A function that calls itself through such a host: with room for three calls the fourth one is
refused, twice, and as the errors are caught no call has failed in the end and none is active. -/
theorem Demand.call_discipline_persistent :
    letI := Host.persistent
    let f : Stmt := .function {} "f" [] [.evaluate {} (.call {} .absent "again" [])]
    let ev := (Evaluator.new 3).register "again" ("f" : Bytes)
    let d : Demand := .run (some ⟨{}, [f]⟩) "f"
    let ctx := (d.prepare ev).context
    ev.depth ≤ ev.context.maxDepth ∧
      (d.perform ev {}).evaluator.memory = (2 : Nat) ∧
      (d.perform ev {}).evaluator.depth = 0 ∧
      ¬ ∃ q, Moment.Passes ctx (d.start ev {}) q ∧
        (Moment.Refused ctx q ∨ ∃ e : ScriptError, e.kind = .stackOverflow ∧
          Moment.HostFails ctx e q) := by
  let _ := Host.persistent
  intro f ev d ctx
  have hroom : ev.depth ≤ ev.context.maxDepth := by decide +kernel
  have hmemory : @Eq Nat (d.perform ev {}).evaluator.memory 2 := by decide +kernel
  obtain ⟨-, hdepth, -, -, hoverflow⟩ := call_discipline d ev {} hroom
  refine ⟨hroom, hmemory, hdepth, fun h ↦ ?_⟩
  have hend : (d.perform ev {}).errorKind? = none := by decide +kernel
  rw [hoverflow.mpr h] at hend
  cases hend

end Scriptlet
