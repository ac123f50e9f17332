import Mathlib.Logic.Relation
import Scriptlet.Proofs.Evaluation.Primitive

/-!
# The moments of a run

A moment of a run is something about to be carried out on the machine as it then is. From each
moment a run enters the next ones: the first thing of a sequence, then the rest on the machine
that the first thing has left, what is done in a scope, the plan of a task, the body of a
function that is called while there is room. No error is caught on the way, so a moment stops
as soon as one that it enters stops. What a host function tries, and whose error it catches, is
met in the run as well, but it is not entered.
-/

namespace Scriptlet

variable [Host]

open Exec Plan

/-- Whether the whole plan is a trial, whose error is caught. -/
def Plan.IsTrial {α : Type} : Plan α → Prop
  | .attempt _ => True
  | _ => False

/-- Something about to be carried out, the nested steps left for it, and the machine. -/
structure Moment where
  {α : Type}
  fuel : Nat
  plan : Plan α
  machine : Machine

namespace Moment

/-- How the moment turns out. -/
def ending (ctx : Context) (p : Moment) : Ending p.α := p.plan.run ctx p.fuel p.machine

/-- The machine with a scope of its own opened inside `parent`. -/
def opened (m : Machine) (parent : ScopeId) : Machine :=
  { m with scopes := (m.scopes.enter (some parent)).2 }

/-- What a run enters from a moment. -/
inductive Enters (ctx : Context) : Moment → Moment → Prop where
  | first {α β : Type} (fuel : Nat) (p : Plan α) (rest : α → Plan β) (m : Machine) :
      Enters ctx ⟨fuel, .bind p rest, m⟩ ⟨fuel, p, m⟩
  | next {α β : Type} {fuel : Nat} {p : Plan α} {m m₁ : Machine} {a : α} (rest : α → Plan β)
      (done : p.run ctx fuel m = .ok a m₁) :
      Enters ctx ⟨fuel, .bind p rest, m⟩ ⟨fuel, rest a, m₁⟩
  | scope {α : Type} (fuel : Nat) (parent : ScopeId) (body : ScopeId → Plan α) (m : Machine) :
      Enters ctx ⟨fuel, .inScope parent body, m⟩
        ⟨fuel, body (m.scopes.enter (some parent)).1, opened m parent⟩
  | task {α : Type} (fuel : Nat) (t : Task α) (m : Machine) :
      Enters ctx ⟨fuel + 1, .task t, m⟩ ⟨fuel, t.plan ctx, m⟩
  /-- A call is given a frame if there is room for one. -/
  | call {name : Bytes} {arguments : List Value} {site : Token} {callee : Callee} (fuel : Nat)
      (m : Machine) (resolved : ctx.resolve name arguments site m.lessons = .ok callee)
      (room : m.depth < ctx.maxDepth) :
      Enters ctx ⟨fuel + 1, .call name arguments site, m⟩
        ⟨fuel, callee.body, { m with depth := m.depth + 1 }⟩

/-- What a run passes through from a moment on. -/
def Passes (ctx : Context) : Moment → Moment → Prop := Relation.ReflTransGen (Enters ctx)

/-- What is tried at a moment, with its error caught. -/
inductive Tries : Moment → Moment → Prop where
  | intro {α : Type} (fuel : Nat) (p : Plan α) (m : Machine) :
      Tries ⟨fuel, .attempt p, m⟩ ⟨fuel, p, m⟩

/-- What is met in a run from a moment on, whether or not its errors are caught. -/
def Meets (ctx : Context) : Moment → Moment → Prop :=
  Relation.ReflTransGen fun p q ↦ Enters ctx p q ∨ Tries p q

/-- The moment ends without a result. -/
def StopsWith (ctx : Context) (p : Moment) (stop : Stop) : Prop :=
  ∃ m, p.ending ctx = .error stop m

variable {ctx : Context} {p q : Moment}

private theorem Enters.stops (h : Enters ctx p q) {stop : Stop} (hq : q.StopsWith ctx stop) :
    p.StopsWith ctx stop := by
  obtain ⟨m', hq⟩ := hq
  cases h with
  | first fuel x rest m =>
    refine ⟨m', ?_⟩
    simp only [ending] at hq
    simp only [ending, Plan.run, Bind.bind, EStateM.bind, hq]
  | next rest done =>
    refine ⟨m', ?_⟩
    simp only [ending] at hq
    simp only [ending, Plan.run, Bind.bind, EStateM.bind, done, hq]
  | scope fuel parent body m =>
    refine ⟨{ m' with scopes := m'.scopes.leave (m.scopes.enter (some parent)).1 }, ?_⟩
    simp only [ending, opened] at hq
    simp only [ending, Plan.run, withScope, andThenAlways, hq]
  | task fuel t m =>
    refine ⟨m', ?_⟩
    simp only [ending] at hq
    simp only [ending, Plan.run, t.run_succ, hq]
  | call fuel m resolved room =>
    refine ⟨{ m' with depth := m'.depth - 1 }, ?_⟩
    simp only [ending] at hq
    simp only [ending, Plan.run, callFunction_succ, resolved, withFrame,
      if_neg (Nat.not_le.mpr room), andThenAlways, hq]

/-- A run stops as soon as a moment that it passes through stops. -/
theorem Passes.stops (h : Passes ctx p q) {stop : Stop} (hq : q.StopsWith ctx stop) :
    p.StopsWith ctx stop := by
  induction h with
  | refl => exact hq
  | tail _ hentered ih => exact ih (hentered.stops hq)

private theorem Enters.not_isTrial (h : Enters ctx p q) : ¬ p.plan.IsTrial := by
  cases h <;> exact not_false

/-- A run does not go on entering moments for ever: the fuel falls where a task or a call is
entered, and elsewhere the plan becomes smaller. -/
theorem acc (ctx : Context) (p : Moment) : Acc (fun q p ↦ Enters ctx p q) p := by
  obtain ⟨fuel, x, m⟩ := p
  rename_i α
  induction fuel using Nat.strongRecOn generalizing α m with
  | ind fuel ihfuel =>
  induction x generalizing m with
  | piece x =>
    constructor
    intro q hq
    cases hq
  | task t =>
    constructor
    intro q hq
    cases hq with
    | task fuel => exact ihfuel fuel (Nat.lt_succ_self fuel) _ _
  | call name arguments site =>
    constructor
    intro q hq
    cases hq with
    | call fuel => exact ihfuel fuel (Nat.lt_succ_self fuel) _ _
  | bind x rest ihx ihrest =>
    constructor
    intro q hq
    cases hq with
    | first => exact ihx m
    | next => exact ihrest _ _
  | inScope parent body ih =>
    constructor
    intro q hq
    cases hq with
    | scope => exact ih _ _
  | attempt x => exact ⟨_, fun q hq ↦ absurd trivial hq.not_isTrial⟩

/-- What holds of a moment as soon as it holds of all that is entered from it holds of every
moment. -/
theorem induction (ctx : Context) {motive : Moment → Prop}
    (enter : ∀ p, (∀ q, Enters ctx p q → motive q) → motive p) (p : Moment) : motive p := by
  induction acc ctx p with
  | intro p _ ih => exact enter p ih

/-- What is passed through is met. -/
theorem Passes.meets (h : Passes ctx p q) : Meets ctx p q :=
  Relation.ReflTransGen.mono (fun _ _ h ↦ Or.inl h) p q h

private theorem Enters.direct (h : Enters ctx p q) (hp : p.plan.Pieces (Direct ctx)) :
    q.plan.Pieces (Direct ctx) := by
  cases h with
  | first fuel x rest m => exact hp.1
  | next rest done => exact hp.2 _
  | scope fuel parent body m => exact hp _
  | task fuel t m => exact t.direct_plan ctx
  | call fuel m resolved room => exact Context.direct_of_resolve resolved

/-- What is met in a direct run is direct, too. -/
theorem Meets.direct (h : Meets ctx p q) (hp : p.plan.Pieces (Direct ctx)) :
    q.plan.Pieces (Direct ctx) := by
  induction h with
  | refl => exact hp
  | tail _ hstep ih =>
    rcases hstep with hentered | ⟨fuel, x, m⟩
    · exact hentered.direct ih
    · exact ih

section Origins

variable {name : Bytes} {arguments : List Value} {site : Token} {fuel : Nat} {m : Machine}

/-- A resolved call that finds no room fails on the spot. -/
theorem ending_call_of_full {callee : Callee}
    (resolved : ctx.resolve name arguments site m.lessons = .ok callee)
    (full : ctx.maxDepth ≤ m.depth) :
    ending ctx ⟨fuel + 1, .call name arguments site, m⟩ =
      .error (.error ⟨.depthExceeded ctx.maxDepth callee.label, site.location⟩) m := by
  simp only [ending, Plan.run, callFunction_succ, resolved, withFrame, if_pos full]
  rfl

/-- A call that is not resolved fails on the spot. -/
theorem ending_call_of_unresolved {cause : Cause}
    (unresolved : ctx.resolve name arguments site m.lessons = .error cause) :
    ending ctx ⟨fuel + 1, .call name arguments site, m⟩ =
      .error (.error ⟨cause, site.location⟩) m := by
  simp only [ending, Plan.run, callFunction_succ, unresolved]
  rfl

/-- A moment that fails of itself: a piece that fails, a call that is not resolved or finds no
room. -/
inductive Origin (ctx : Context) : Moment → ScriptError → Prop where
  | piece {α : Type} {x : Exec α} {e : ScriptError} {m' : Machine} (fuel : Nat) (m : Machine)
      (fails : x m = .error (.error e) m') : Origin ctx ⟨fuel, .piece x, m⟩ e
  | unresolved {name : Bytes} {arguments : List Value} {site : Token} {cause : Cause}
      (fuel : Nat) (m : Machine)
      (unresolved : ctx.resolve name arguments site m.lessons = .error cause) :
      Origin ctx ⟨fuel + 1, .call name arguments site, m⟩ ⟨cause, site.location⟩
  | refused {name : Bytes} {arguments : List Value} {site : Token} {callee : Callee}
      (fuel : Nat) (m : Machine)
      (resolved : ctx.resolve name arguments site m.lessons = .ok callee)
      (full : ctx.maxDepth ≤ m.depth) :
      Origin ctx ⟨fuel + 1, .call name arguments site, m⟩
        ⟨.depthExceeded ctx.maxDepth callee.label, site.location⟩

private theorem exists_origin_call {e : ScriptError}
    (hs : StopsWith ctx ⟨fuel + 1, .call name arguments site, m⟩ (.error e))
    (hbody : ∀ (body : Plan Value) (m : Machine), StopsWith ctx ⟨fuel, body, m⟩ (.error e) →
      ∃ q, Passes ctx ⟨fuel, body, m⟩ q ∧ Origin ctx q e) :
    ∃ q, Passes ctx ⟨fuel + 1, .call name arguments site, m⟩ q ∧ Origin ctx q e := by
  obtain ⟨m', hs⟩ := hs
  cases hc : ctx.resolve name arguments site m.lessons with
  | error cause =>
    rw [ending_call_of_unresolved hc] at hs
    cases hs
    exact ⟨_, Relation.ReflTransGen.refl, .unresolved fuel m hc⟩
  | ok callee =>
    by_cases full : ctx.maxDepth ≤ m.depth
    · rw [ending_call_of_full hc full] at hs
      cases hs
      exact ⟨_, Relation.ReflTransGen.refl, .refused fuel m hc full⟩
    · simp only [ending, Plan.run, callFunction_succ, hc, withFrame, if_neg full] at hs
      obtain ⟨m₁, hs⟩ := exists_of_andThenAlways_eq_error hs
      obtain ⟨q, hq, ho⟩ := hbody callee.body _ ⟨m₁, hs⟩
      exact ⟨q, Relation.ReflTransGen.head (.call fuel m hc (Nat.lt_of_not_le full)) hq, ho⟩

/-- A moment that fails does so of itself, or enters one that fails in the same way; what is tried
does not make it fail. The fuel falls where a task or a call is entered; elsewhere the plan becomes
smaller. -/
theorem StopsWith.exists_origin {p : Moment} {e : ScriptError}
    (hs : p.StopsWith ctx (.error e)) : ∃ q, Passes ctx p q ∧ Origin ctx q e := by
  obtain ⟨fuel, x, m⟩ := p
  rename_i α
  induction fuel using Nat.strongRecOn generalizing α m with
  | ind fuel ihfuel =>
  induction x generalizing m with
  | piece x =>
    obtain ⟨m', hs⟩ := hs
    exact ⟨_, Relation.ReflTransGen.refl, .piece fuel m hs⟩
  | task t =>
    cases fuel with
    | zero =>
      obtain ⟨m', hs⟩ := hs
      simp only [ending, Plan.run, t.run_zero] at hs
      cases hs
    | succ fuel =>
      obtain ⟨m', hs⟩ := hs
      simp only [ending, Plan.run, t.run_succ] at hs
      obtain ⟨q, hq, ho⟩ := ihfuel fuel (Nat.lt_succ_self fuel) (t.plan ctx) m ⟨m', hs⟩
      exact ⟨q, Relation.ReflTransGen.head (.task fuel t m) hq, ho⟩
  | call name arguments site =>
    cases fuel with
    | zero =>
      obtain ⟨m', hs⟩ := hs
      simp only [ending, Plan.run, callFunction] at hs
      cases hs
    | succ fuel => exact exists_origin_call hs fun body ↦ ihfuel fuel (Nat.lt_succ_self fuel) body
  | bind x rest ihx ihrest =>
    obtain ⟨m', hs⟩ := hs
    simp only [ending, Plan.run, Bind.bind, EStateM.bind] at hs
    cases hr : x.run ctx fuel m with
    | ok a m₁ =>
      rw [hr] at hs
      obtain ⟨q, hq, ho⟩ := ihrest a m₁ ⟨m', hs⟩
      exact ⟨q, Relation.ReflTransGen.head (.next rest hr) hq, ho⟩
    | error stop' m₁ =>
      rw [hr] at hs
      cases hs
      obtain ⟨q, hq, ho⟩ := ihx m ⟨m', hr⟩
      exact ⟨q, Relation.ReflTransGen.head (.first fuel x rest m) hq, ho⟩
  | inScope parent body ih =>
    obtain ⟨m', hs⟩ := hs
    simp only [ending, Plan.run, withScope] at hs
    obtain ⟨m₁, hbody⟩ := exists_of_andThenAlways_eq_error hs
    obtain ⟨q, hq, ho⟩ := ih _ (opened m parent) ⟨m₁, hbody⟩
    exact ⟨q, Relation.ReflTransGen.head (.scope fuel parent body m) hq, ho⟩
  | attempt x =>
    obtain ⟨m', hs⟩ := hs
    simp only [ending, Plan.run, Exec.attempt] at hs
    split at hs <;> cases hs

end Origins

section Shapes

/-- What happens at a moment, as the heap sees it: a piece is carried out, a sequence goes its
way, something is tried, the run stops on the spot, or it goes through one other moment with the
heap as it is. -/
inductive Shape (ctx : Context) : Moment → Prop where
  | piece {α : Type} (fuel : Nat) (x : Exec α) (m : Machine) : Shape ctx ⟨fuel, .piece x, m⟩
  | seq {α β : Type} (fuel : Nat) (x : Plan α) (rest : α → Plan β) (m : Machine) :
      Shape ctx ⟨fuel, .bind x rest, m⟩
  | trial {α : Type} (fuel : Nat) (x : Plan α) (m : Machine) : Shape ctx ⟨fuel, .attempt x, m⟩
  | still {p : Moment} (nothing : ∀ q, ¬ Enters ctx p q)
      (stops : (p.ending ctx).machine = p.machine) : Shape ctx p
  | through {p q : Moment} (enters : Enters ctx p q) (only : ∀ q', Enters ctx p q' → q' = q)
      (found : q.machine.heap = p.machine.heap)
      (left : (p.ending ctx).machine.heap = (q.ending ctx).machine.heap) : Shape ctx p

private theorem heap_andThenAlways {α : Type} (x : Exec α) (g : Machine → Machine) (m : Machine)
    (hg : ∀ m, (g m).heap = m.heap) :
    (Ending.machine (andThenAlways x g m)).heap = (Ending.machine (x m)).heap := by
  simp only [andThenAlways]
  cases x m with
  | ok a m' => exact hg m'
  | error stop m' => exact hg m'

private theorem shape_call (fuel : Nat) (name : Bytes) (arguments : List Value) (site : Token)
    (m : Machine) : Shape ctx ⟨fuel + 1, .call name arguments site, m⟩ := by
  cases hres : ctx.resolve name arguments site m.lessons with
  | error cause =>
    refine .still (fun q hq ↦ ?_) (by rw [ending_call_of_unresolved hres]; rfl)
    cases hq with
    | call fuel m resolved => cases hres.symm.trans resolved
  | ok callee =>
    by_cases full : ctx.maxDepth ≤ m.depth
    · refine .still (fun q hq ↦ ?_) (by rw [ending_call_of_full hres full]; rfl)
      cases hq with
      | call fuel m resolved room => exact absurd full (Nat.not_le.mpr room)
    · refine .through (.call fuel m hres (Nat.lt_of_not_le full)) (fun q hq ↦ ?_) rfl ?_
      · cases hq with
        | call fuel m resolved room =>
          cases hres.symm.trans resolved
          rfl
      · simp only [ending, Plan.run, callFunction_succ, hres, withFrame, if_neg full]
        exact heap_andThenAlways _ _ _ fun _ ↦ rfl

/-- One of these is the case at every moment. -/
theorem shape (ctx : Context) (p : Moment) : Shape ctx p := by
  obtain ⟨fuel, x, m⟩ := p
  cases x with
  | piece x => exact .piece fuel x m
  | bind x rest => exact .seq fuel x rest m
  | attempt x => exact .trial fuel x m
  | inScope parent body =>
    refine .through (.scope fuel parent body m) (fun q hq ↦ ?_) rfl ?_
    · cases hq
      rfl
    · simp only [ending, Plan.run, withScope]
      exact heap_andThenAlways _ _ _ fun _ ↦ rfl
  | task t =>
    cases fuel with
    | zero =>
      refine .still (fun q hq ↦ by cases hq) ?_
      simp only [ending, Plan.run, t.run_zero]
      rfl
    | succ fuel =>
      refine .through (.task fuel t m) (fun q hq ↦ ?_) rfl ?_
      · cases hq
        rfl
      · simp only [ending, Plan.run, t.run_succ]
  | call name arguments site =>
    cases fuel with
    | zero =>
      refine .still (fun q hq ↦ by cases hq) ?_
      simp only [ending, Plan.run, callFunction]
      rfl
    | succ fuel => exact shape_call fuel name arguments site m

end Shapes

end Moment
end Scriptlet
