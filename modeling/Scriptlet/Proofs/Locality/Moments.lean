import Scriptlet.Proofs.Evaluation.Moment
import Scriptlet.Proofs.Locality.Intact
import Scriptlet.Proofs.Session.Reached

/-!
# No handle dangles at any moment

Sessions are closed between their operations. They are so at every moment of an operation, too: what
a running script holds on to, in its variables, in the values that it has come to so far and in the
loops that it is in, names containers of the heap. This is carried from moment to moment by what
each plan holds on to.
-/

namespace Scriptlet

open Exec Plan

/-- A machine is like itself along a pairing, and so is what can be called. -/
structure Machine.Closed (π : Pairing) (ctx : Context) (m : Machine) : Prop where
  linked : m.Linked π m
  context : Alike π ctx ctx

/-- What a task carries along names paired containers. -/
def Task.Holds (π : Pairing) {α : Type} : Task α → Prop
  | .expr _ _ => True
  | .stmt _ _ flags | .turns _ _ _ _ flags => Pairable.Alike π flags flags
  | .visits _ _ _ walk flags => Pairable.Alike π walk walk ∧ Pairable.Alike π flags flags
  | .resume t => t.elim

/-- So does what a plan carries along, at each step of carrying it out on a machine. -/
def Plan.Holds (ctx : Context) (fuel : Nat) {α : Type} : Plan α → Pairing → Machine → Prop
  | .piece _, _, _ => True
  | .task t, π, _ => t.Holds π
  | .call _ arguments _, π, _ => Pairable.Alike π arguments arguments
  | .bind p rest, π, m => p.Holds ctx fuel π m ∧
      ∀ a m₁, p.run ctx fuel m = .ok a m₁ →
        ∃ π', m₁.Closed π' ctx ∧ (rest a).Holds ctx fuel π' m₁
  | .inScope parent body, π, m =>
      (body (m.scopes.enter (some parent)).1).Holds ctx fuel π (Moment.opened m parent)
  | .attempt p, π, m => p.Holds ctx fuel π m

section Plans

variable {ctx : Context} {fuel : Nat} {π : Pairing} {m : Machine}

namespace Machine.Closed

/-- A scope may be opened. -/
theorem opened (hm : m.Closed π ctx) (parent : ScopeId) :
    (Moment.opened m parent).Closed π ctx where
  linked :=
    ⟨hm.linked.heap, (hm.linked.scopes.enter (some parent)).2, rfl, rfl⟩
  context := hm.context

/-- A frame may be pushed. -/
theorem pushed (hm : m.Closed π ctx) :
    Machine.Closed π ctx { m with depth := m.depth + 1 } where
  linked := ⟨hm.linked.heap, hm.linked.scopes, rfl, rfl⟩
  context := hm.context

private theorem of_run {α : Type} [Pairable α] {p : Plan α} {a : α} {m₁ : Machine}
    (hm : m.Closed π ctx) (hp : p.Alike π p) (run : p.run ctx fuel m = .ok a m₁) :
    ∃ π', π ≤ π' ∧ m₁.Closed π' ctx ∧ Pairable.Alike π' a a := by
  have hends := (hp.runsAlike fuel hm.context).ends (le_refl π) hm.linked
  rw [run] at hends
  cases hends with
  | ok grown linked value => exact ⟨_, grown.le, ⟨linked, hm.context.mono grown.le⟩, value⟩

private theorem of_write (hm : m.Closed π ctx) {l : Location} {c c' key key' v v' : Value}
    (hc : Pairable.Alike π c c') (hkey : Pairable.Alike π key key') (hv : Pairable.Alike π v v')
    (same : operate l (·.write c key v) = operate l (·.write c' key' v')) {h : Heap} {m₁ : Machine}
    (run : operate l (·.write c key v) m = .ok h m₁) :
    m₁ = m ∧ Machine.Closed π ctx { m with heap := h } := by
  have hwritten {c key v : Value} (run : operate l (·.write c key v) m = .ok h m₁) :
      m.heap.write c key v = .ok h ∧ m₁ = m := by
    obtain ⟨x, m₂, hi, hl⟩ := (bind_eq_ok_iff _ _ _ _ _).mp run
    obtain ⟨rfl, rfl⟩ := (inspect_eq_ok_iff _ _ _ _).mp hi
    obtain ⟨hw, rfl⟩ := (lift_eq_ok_iff _ _ _ _ _).mp hl
    exact ⟨hw, rfl⟩
  obtain ⟨hw, rfl⟩ := hwritten run
  rw [same] at run
  obtain ⟨hw', -⟩ := hwritten run
  refine ⟨rfl, ?_⟩
  rcases hm.linked.heap.write hc hkey hv with ⟨cause, he, -⟩ | ⟨k, k', hk, hk', -, hlinked⟩
  · cases hw.symm.trans he
  · cases hw.symm.trans hk
    cases hw'.symm.trans hk'
    exact ⟨⟨hlinked, hm.linked.scopes, rfl, rfl⟩, hm.context⟩

end Machine.Closed

private theorem Task.Alike.holds {t : Task Flags} (ht : t.Alike π t) : t.Holds π := by
  cases ht with
  | stmt scope s hf | turns scope l c body hf => exact hf
  | visits scope vars body hw hf => exact ⟨hw, hf⟩

/-- A plan that is like itself carries along what is paired, on a closed machine. -/
theorem Plan.Alike.holds {α : Type} [Pairable α] {p p' : Plan α} (h : p.Alike π p')
    (same : p' = p) (hm : m.Closed π ctx) : p.Holds ctx fuel π m := by
  induction h generalizing m with
  | piece h => trivial
  | eval scope e => trivial
  | task ht =>
    cases same
    exact ht.holds
  | call name site hvs =>
    cases same
    exact hvs
  | bind hp hrest ihp ihrest =>
    injection same with hβ hα hp' hrest'
    refine ⟨ihp hp' hm, fun a m₁ run ↦ ?_⟩
    subst hp' hrest'
    obtain ⟨π', hle, hm₁, ha⟩ := hm.of_run hp run
    exact ⟨π', hm₁, ihrest hle ha rfl hm₁⟩
  | inScope parent h ih =>
    injection same with hα hparent hbody
    exact ih _ (congrFun hbody _) (hm.opened parent)
  | store l hc hkey hv hab =>
    injection same with hβ hα hpiece hrest
    injection hpiece with hγ hwrites
    refine ⟨trivial, fun heap m₁ run ↦ ?_⟩
    obtain ⟨rfl, hstored⟩ := hm.of_write hc hkey hv hwrites.symm run
    refine ⟨_, hm, trivial, fun _ m₂ stored ↦ ?_⟩
    cases stored
    exact ⟨_, hstored, trivial⟩

/-- What a task carries along is carried along by what it does. -/
theorem Task.holds_plan {α : Type} {t : Task α} (ht : t.Holds π) (hm : m.Closed π ctx) :
    (t.plan ctx).Holds ctx fuel π m := by
  have hflags {t : Task Flags} (ht : t.Alike π t) : (t.plan ctx).Holds ctx fuel π m :=
    (ht.plan hm.context).holds rfl hm
  cases t with
  | expr scope e => exact (e.plan_alike scope).holds rfl hm
  | stmt scope s flags => exact hflags (.stmt scope s ht)
  | turns scope l c statements flags => exact hflags (.turns scope l c statements ht)
  | visits scope vars statements walk flags =>
    exact hflags (.visits scope vars statements ht.1 ht.2)
  | resume t => exact t.elim

private theorem Context.holds_of_resolve {name : Bytes} {vs : List Value} {site : Token}
    {callee : Callee} (hvs : Pairable.Alike π vs vs) (hm : m.Closed π ctx)
    (resolved : ctx.resolve name vs site = .ok callee) : callee.body.Holds ctx fuel π m := by
  have hresolve := ctx.resolve_alike hm.context name site hvs
  rw [resolved] at hresolve
  cases hresolve with
  | ok label h => exact h.holds rfl hm

end Plans

namespace Moment

variable {ctx : Context} {p q : Moment}

/-- The machine is closed, and the plan holds on to nothing else. -/
def Closed (ctx : Context) (p : Moment) : Prop :=
  ∃ π, p.machine.Closed π ctx ∧ p.plan.Holds ctx p.fuel π p.machine

/-- What is entered is closed. -/
theorem Enters.closed (h : Enters ctx p q) (hp : p.Closed ctx) : q.Closed ctx := by
  obtain ⟨π, hm, hplan⟩ := hp
  cases h with
  | first fuel x rest m => exact ⟨π, hm, hplan.1⟩
  | next rest done =>
    obtain ⟨π', hm', hrest⟩ := hplan.2 _ _ done
    exact ⟨π', hm', hrest⟩
  | scope fuel parent body m => exact ⟨π, hm.opened parent, hplan⟩
  | task fuel t m => exact ⟨π, hm, Task.holds_plan hplan hm⟩
  | call fuel m resolved room =>
    rw [Context.resolve_lessons] at resolved
    exact ⟨π, hm.pushed, Context.holds_of_resolve hplan hm.pushed resolved⟩

/-- So is everything that a run passes through. -/
theorem Passes.closed (h : Passes ctx p q) (hp : p.Closed ctx) : q.Closed ctx := by
  induction h with
  | refl => exact hp
  | tail _ hentered ih => exact hentered.closed ih

/-- Operations begin in closed moments. -/
theorem closed_start {π : Pairing} (op : EvaluatorOperation) {ev : Evaluator} {h : Heap}
    {vs : List Value} (hl : h.Linked π h) (hev : Alike π ev ev) (hvs : Alike π vs vs) :
    Closed (op.context ev) (op.start ev h vs) := by
  replace hev : ev.Alike π ev := hev
  have hctx : Alike π (op.context ev) (op.context ev) := by
    cases op with
    | load p | run p entry into => exact (hev.learn p).context
    | _ => exact hev.context
  have hm : Machine.Closed π (op.context ev) (op.start ev h vs).machine := by
    rw [op.machine_start]
    exact ⟨⟨hl, hev.scopes, rfl, rfl⟩, hctx⟩
  have hplan {p : Plan Value} (hp : p.Alike π p) :
      p.Holds (op.context ev) ampleFuel π (op.start ev h vs).machine := hp.holds rfl hm
  refine ⟨π, hm, ?_⟩
  cases op with
  | load p => exact hplan ((ofProgram_alike p).bind fun _ _ ↦ .pure .none)
  | run p main into => exact hplan (running_alike hctx p main)
  | invoke name arguments site into => exact hplan (.call name site hvs)
  | evaluate e into => exact hplan (.eval .global e)
  | lookup name into => exact hplan (.piece (runsAlike_lookup .global name {}))
  | declare name v =>
    have hdeclare := runsAlike_declare .global name (EvaluatorOperation.headD_alike hvs)
    exact hplan ((Plan.Alike.piece hdeclare).bind fun _ _ ↦ .pure Value.Alike.none)
  | has | display | register => exact hplan (.pure Value.Alike.none)

/-- At no moment that a session passes through does a handle dangle. -/
theorem Reached.exists_intact (hq : q.Reached ctx) : ∃ π, q.machine.Intact π ctx := by
  have hwf := hq.wf
  cases hq with
  | @during s name ev op vs h q session known built passes =>
    cases session with
    | after evaluator maxDepth ops =>
    obtain ⟨π, hs⟩ := Session.exists_closed_steps_start evaluator maxDepth ops
    have hev := hs.alike.evaluators name trivial
    rw [known] at hev
    have hbuilt := Literal.buildAll_alike op.literals hs.linked
      fun _ _ register _ ↦ hs.alike.registers register trivial
    rw [built] at hbuilt
    cases hbuilt with
    | ok grown linked value =>
    have hstart := closed_start op linked ((Option.rel_some_some.mp hev).mono grown.le) value
    obtain ⟨π', hm, -⟩ := passes.closed hstart
    exact ⟨π', hwf, hm.linked, hm.context⟩

end Moment
end Scriptlet
