import Mathlib.Data.Option.Basic
import Scriptlet.Proofs.DeadCode.Pruning
import Scriptlet.Proofs.Evaluation.Congruence
import Scriptlet.Proofs.Evaluation.Scripted

/-!
# Running without dead code

A run and the same run without dead code are kept in step. Since a jump that does nothing is still
a step, the fuel counts: whatever a run comes to with some fuel, the run without dead code comes to
with as much, and what that comes to, the run comes to with one more. The three runs are compared
plan by plan, and within each list of statements along the way it was pruned.
-/

namespace Scriptlet

open Exec Plan

namespace Exec

variable {α β : Type}

/-- Of three runs each leads to the next. -/
structure Chain (r r' r'' : Ending α) : Prop where
  forth : Leads r r'
  back : Leads r' r''

namespace Chain

variable {x x' x'' : Exec α} {f f' f'' : α → Exec β} {m : Machine}

private theorem refl (r : Ending α) : Chain r r r := ⟨fun _ ↦ rfl, fun _ ↦ rfl⟩

private theorem bind (hx : Chain (x m) (x' m) (x'' m))
    (hf : ∀ a m₁, x m = .ok a m₁ ∨ x' m = .ok a m₁ → Chain (f a m₁) (f' a m₁) (f'' a m₁)) :
    Chain ((x >>= f) m) ((x' >>= f') m) ((x'' >>= f'') m) where
  forth := hx.forth.bind fun a m₁ ha ↦ (hf a m₁ (Or.inl ha)).forth
  back := hx.back.bind fun a m₁ ha ↦ (hf a m₁ (Or.inr ha)).back

private theorem always (g : Machine → Machine) (hx : Chain (x m) (x' m) (x'' m)) :
    Chain (andThenAlways x g m) (andThenAlways x' g m) (andThenAlways x'' g m) :=
  ⟨hx.forth.always g, hx.back.always g⟩

private theorem attempt (hx : Chain (x m) (x' m) (x'' m)) :
    Chain (attempt x m) (attempt x' m) (attempt x'' m) :=
  ⟨hx.forth.attempt, hx.back.attempt⟩

private theorem frame {ctx ctx' : Context} (limit : ctx'.maxDepth = ctx.maxDepth) (callee : Bytes)
    (location : Location) (m : Machine) (h : ∀ m', Chain (x m') (x' m') (x'' m')) :
    Chain (withFrame ctx callee location x m) (withFrame ctx' callee location x' m)
      (withFrame ctx callee location x'' m) := by
  simp only [withFrame, limit]
  split
  · exact refl _
  · exact (h _).always _

end Chain
end Exec

/-- The functions of one context are those of another one without dead code. -/
structure Context.Pruned (ctx ctx' : Context) : Prop where
  functions : ∀ name : Bytes, Option.Rel Function.Pruned ctx.functions[name]? ctx'.functions[name]?
  builtins : ctx'.builtins = ctx.builtins
  maxDepth : ctx'.maxDepth = ctx.maxDepth

section Plans

variable {ctx ctx' : Context} {fuel : Nat} {α β : Type}

/-- Two plans of which the first leads to the second, and this to the first with more fuel. -/
def Plan.Chained (ctx ctx' : Context) (fuel : Nat) (p p' : Plan α) : Prop :=
  ∀ m, Chain (p.run ctx fuel m) (p'.run ctx' fuel m) (p.run ctx (fuel + 1) m)

/-- A plan yields a value in some run. -/
def Plan.Yields (ctx : Context) (fuel : Nat) (p : Plan α) (a : α) : Prop :=
  ∃ m m₁, p.run ctx fuel m = .ok a m₁

namespace Plan.Chained

/-- Sequences are chained if their parts are. -/
theorem bind {p p' : Plan α} {rest rest' : α → Plan β} (hp : Chained ctx ctx' fuel p p')
    (hrest : ∀ a, p.Yields ctx fuel a ∨ p'.Yields ctx' fuel a →
      Chained ctx ctx' fuel (rest a) (rest' a)) :
    Chained ctx ctx' fuel (p >>= rest) (p' >>= rest') :=
  fun m ↦ (hp m).bind fun a m₁ ha ↦ hrest a (ha.imp (⟨m, m₁, ·⟩) (⟨m, m₁, ·⟩)) m₁

private theorem inScope (parent : ScopeId) {body body' : ScopeId → Plan α}
    (h : ∀ inner, Chained ctx ctx' fuel (body inner) (body' inner)) :
    Chained ctx ctx' fuel (.inScope parent body) (.inScope parent body') :=
  fun _ ↦ (h _ _).always _

private theorem attempt {p p' : Plan α} (hp : Chained ctx ctx' fuel p p') :
    Chained ctx ctx' fuel (.attempt p) (.attempt p') :=
  fun m ↦ (hp m).attempt

/-- Choices are chained if both alternatives are. -/
theorem ite {c : Prop} [Decidable c] {p p' q q' : Plan α}
    (hp : c → Chained ctx ctx' fuel p p') (hq : ¬ c → Chained ctx ctx' fuel q q') :
    Chained ctx ctx' fuel (if c then p else q) (if c then p' else q') := by
  split
  · next h => exact hp h
  · next h => exact hq h

private theorem piece (x : Exec α) :
    Chained ctx ctx' fuel (.piece x) (.piece x) := fun _ ↦ Chain.refl _

/-- A value is a value everywhere. -/
theorem pure (a : α) : Chained ctx ctx' fuel (Pure.pure a) (Pure.pure a) := piece _

/-- Going on with what is known. -/
theorem known {rest rest' : Context → Plan α} (h : Chained ctx ctx' fuel (rest ctx) (rest' ctx')) :
    Chained ctx ctx' fuel (.piece (Exec.known ctx) >>= rest)
      (.piece (Exec.known ctx') >>= rest') := by
  intro m
  rw [known_eq, known_eq]
  exact h m

end Plan.Chained

/-- What runs with some fuel in a context lead to in another one: everything to itself, and what
has dead code in it to the same without. Statements are taken without a flag up. -/
structure Tracked (ctx ctx' : Context) (fuel : Nat) : Prop where
  task : ∀ {α : Type} (t : Task α), Chained ctx ctx' fuel (.task t) (.task t)
  call : ∀ name arguments site,
    Chained ctx ctx' fuel (.call name arguments site) (.call name arguments site)
  stmt : ∀ (scope : ScopeId) {s s' : Stmt} {flags : Flags}, flags.stops = false →
    Stmt.Pruned flags.inLoop s s' →
    Chained ctx ctx' fuel (.task (.stmt scope s flags)) (.task (.stmt scope s' flags))
  turns : ∀ (scope : ScopeId) (l : Location) (c : Expr) {ss ss' : List Stmt} {flags : Flags},
    flags.stops = false → flags.inLoop = true → PrunedBody Stmt.Pruned true ss ss' →
    Chained ctx ctx' fuel (.task (.turns scope l c ss flags)) (.task (.turns scope l c ss' flags))
  visits : ∀ (scope : ScopeId) (vars : LoopVars) (walk : Walk) {ss ss' : List Stmt}
    {flags : Flags}, flags.stops = false → flags.inLoop = true →
    PrunedBody Stmt.Pruned true ss ss' →
    Chained ctx ctx' fuel (.task (.visits scope vars ss walk flags))
      (.task (.visits scope vars ss' walk flags))

section Flags

variable {flags flags' : Flags}

/-- A statement that leaves its list does not complete normally. -/
theorem BigStep.abrupt_of_leaves {m m' : Machine} {scope : ScopeId} {inLoop : Bool} {s : Stmt}
    {c : Completion} (h : BigStep ctx m (.stmt scope inLoop s c) m')
    (hs : s.leaves inLoop = true) : c ≠ .normal := by
  rintro rfl
  cases h <;> cases hs

private theorem Flags.inLoop_signal {c : Completion} (hf : flags.stops = false)
    (hc : c.Fits flags.inLoop) : (flags.signal c).inLoop = flags.inLoop :=
  (Flags.signals_signal hf hc).inLoop

private theorem Plan.Yields.inLoop_stmt {scope : ScopeId} {s : Stmt} (hf : flags.stops = false)
    (h : (task (.stmt scope s flags)).Yields ctx fuel flags') : flags'.inLoop = flags.inLoop := by
  obtain ⟨m, m', hrun⟩ := h
  obtain ⟨c, hc, rfl⟩ := (sound ctx fuel).stmt scope s flags m m' flags' hf hrun
  exact Flags.inLoop_signal hf hc.fits

private theorem Plan.Yields.inLoop_block {parent : ScopeId} {bindings : List (Bytes × Value)}
    {ss : List Stmt} (hf : flags.stops = false)
    (h : (block parent bindings ss flags).Yields ctx fuel flags') :
    flags'.inLoop = flags.inLoop := by
  obtain ⟨m, m', hrun⟩ := h
  rw [run_block] at hrun
  obtain ⟨c, hc, rfl⟩ := (sound ctx fuel).block parent bindings ss flags flags' m m' hf hrun
  exact Flags.inLoop_signal hf hc.fits

private theorem Plan.Yields.stops_of_leaves {scope : ScopeId} {s : Stmt} (hf : flags.stops = false)
    (hs : s.leaves flags.inLoop = true)
    (h : (task (.stmt scope s flags)).Yields ctx fuel flags') : flags'.stops = true := by
  obtain ⟨m, m', hrun⟩ := h
  obtain ⟨c, hc, rfl⟩ := (sound ctx fuel).stmt scope s flags m m' flags' hf hrun
  rw [Flags.stops_signal hf hc.fits, decide_eq_true_iff]
  exact hc.abrupt_of_leaves hs

private theorem Flags.stops_nextTurn (h : ¬ (flags.didReturn || flags.didBreak) = true) :
    flags.nextTurn.stops = false := by
  obtain ⟨value, didReturn, loop⟩ := flags
  cases loop with
  | none => simpa [nextTurn, stops, didBreak, didContinue] using h
  | some l => simpa [nextTurn, stops, didBreak, didContinue] using h

private theorem Flags.inLoop_nextTurn (flags : Flags) : flags.nextTurn.inLoop = flags.inLoop :=
  Option.isSome_map

end Flags

namespace Tracked

private theorem self (h : Tracked ctx ctx' fuel) (p : Plan α) : Chained ctx ctx' fuel p p := by
  induction p with
  | piece x => exact .piece x
  | task t => exact h.task t
  | call name arguments site => exact h.call name arguments site
  | bind p rest ihp ihrest => exact ihp.bind fun a _ ↦ ihrest a
  | inScope parent body ih => exact .inScope parent ih
  | attempt p ih => exact ih.attempt

/-- A list of statements leads to the list without dead code. -/
theorem body (h : Tracked ctx ctx' fuel) (scope : ScopeId) {inLoop : Bool} {ss ss' : List Stmt}
    (hss : PrunedBody Stmt.Pruned inLoop ss ss') :
    ∀ {flags : Flags}, flags.stops = false → flags.inLoop = inLoop →
      Chained ctx ctx' fuel (body scope ss flags) (body scope ss' flags) := by
  induction hss with
  | nil => exact fun _ _ ↦ .pure _
  | cons first rest ih =>
    rintro flags hf rfl
    refine (h.stmt scope hf first).bind fun flags' hyields ↦ .ite (fun _ ↦ .pure _) fun hgoes ↦ ?_
    exact ih (Bool.eq_false_iff.mpr hgoes)
      (hyields.elim (·.inLoop_stmt hf) (·.inLoop_stmt hf))
  | leave leaves =>
    rintro flags hf rfl
    refine (h.task _).bind fun flags' hyields ↦ ?_
    have hstops : flags'.stops = true :=
      hyields.elim (·.stops_of_leaves hf leaves) (·.stops_of_leaves hf leaves)
    rw [if_pos hstops, if_pos hstops]
    exact .pure _
  | @stray s ss ss' jump rest ih =>
    intro flags hf hl m
    -- With fuel for a step the jump does nothing, and the list goes on behind it.
    have hskip (fuel : Nat) : (Plan.body scope (s :: ss) flags).run ctx (fuel + 1) m =
        (Plan.body scope ss flags).run ctx (fuel + 1) m := by
      rw [run_body, runBody, bind_of_ok (FlagsAgree.exec_jump jump hl), hf,
        if_neg Bool.false_ne_true, run_body]
    have hrest := ih hf hl m
    refine ⟨?_, (hskip fuel).symm ▸ hrest.back⟩
    cases fuel with
    | zero =>
      intro hfinished
      rw [run_body, runBody, execStmt] at hfinished
      exact absurd rfl hfinished
    | succ fuel =>
      rw [hskip fuel]
      exact hrest.forth

private theorem block (h : Tracked ctx ctx' fuel) (parent : ScopeId)
    (bindings : List (Bytes × Value)) {ss ss' : List Stmt} {flags : Flags}
    (hf : flags.stops = false)
    (hss : PrunedBody Stmt.Pruned flags.inLoop ss ss') :
    Chained ctx ctx' fuel (block parent bindings ss flags) (block parent bindings ss' flags) :=
  .inScope parent fun inner ↦ (Chained.piece _).bind fun _ _ ↦ h.body inner hss hf rfl

private theorem zero (ctx ctx' : Context) : Tracked ctx ctx' 0 := by
  have hspent {α : Type} (t t' : Task α) : Chained ctx ctx' 0 (.task t) (.task t') := by
    intro m
    rw [run, run, t.run_zero, t'.run_zero]
    exact ⟨fun h ↦ absurd rfl h, fun h ↦ absurd rfl h⟩
  refine ⟨fun t ↦ hspent t t, fun name arguments site m ↦ ?_, fun _ _ _ _ _ _ ↦ hspent _ _,
    fun _ _ _ _ _ _ _ _ _ ↦ hspent _ _, fun _ _ _ _ _ _ _ _ _ ↦ hspent _ _⟩
  rw [run, run, callFunction, callFunction]
  exact ⟨fun h ↦ absurd rfl h, fun h ↦ absurd rfl h⟩

end Tracked

private theorem Builtin.plan_congr (ctx ctx' : Context) (b : Builtin) (arguments : List Value)
    (site : Token) : b.plan ctx' arguments site = b.plan ctx arguments site := by
  cases b with
  | host name answer => rw [plan_host, plan_host]
  | _ => rfl

namespace Tracked

private theorem plan (h : Tracked ctx ctx' fuel) (hctx : ctx.Pruned ctx') (t : Task α) :
    Chained ctx ctx' fuel (t.plan ctx) (t.plan ctx') := by
  cases t with
  | stmt scope s flags =>
    cases s with
    | print l arguments =>
      refine (h.self (each (eval scope) arguments)).bind fun vs _ ↦ .known ?_
      rw [hctx.builtins]
      cases ctx.builtins[Builtin.print.name]? with
      | some b =>
        dsimp only
        rw [Builtin.plan_congr ctx ctx']
        exact h.self _
      | none => exact h.self _
    | _ => exact h.self _
  | resume t => exact t.elim
  | _ => exact h.self _

private theorem stmt_succ (h : Tracked ctx ctx' fuel) (hctx : ctx.Pruned ctx') (scope : ScopeId)
    {s s' : Stmt} {flags : Flags} (hf : flags.stops = false)
    (hs : Stmt.Pruned flags.inLoop s s') :
    Chained ctx ctx' fuel (s.plan ctx scope flags) (s'.plan ctx' scope flags) := by
  generalize hl : flags.inLoop = inLoop at hs
  subst hl
  cases hs with
  | refl =>
    exact h.plan hctx (.stmt scope s flags)
  | ifThen l c body =>
    refine (h.self _).bind fun v _ ↦ (h.self _).bind fun _ _ ↦ .ite (fun _ ↦ ?_) fun _ ↦ .pure _
    exact h.block scope [] hf body
  | ifElse l c body otherwise =>
    refine (h.self _).bind fun v _ ↦ (h.self _).bind fun _ _ ↦ .ite (fun _ ↦ ?_) fun _ ↦ ?_
    · exact h.block scope [] hf body
    · exact h.block scope [] hf otherwise
  | whileLoop l c body =>
    have hturns := h.turns scope l c (Flags.stops_enterLoop hf) rfl body
    exact hturns.bind fun _ _ ↦ .pure _
  | forEach l vars iterable body =>
    have hvisits (walk : Walk) := h.visits scope vars walk (Flags.stops_enterLoop hf) rfl body
    refine (h.self _).bind fun v _ ↦ ?_
    split
    · exact (h.self _).bind fun walk _ ↦ (hvisits walk).bind fun _ _ ↦ .pure _
    · exact (h.self _).bind fun walk _ ↦ (hvisits walk).bind fun _ _ ↦ .pure _
    · exact h.self _
  | function l name parameters body => exact .piece _

private theorem turns_succ (h : Tracked ctx ctx' fuel) (scope : ScopeId) (l : Location) (c : Expr)
    {ss ss' : List Stmt} {flags : Flags} (hf : flags.stops = false) (hl : flags.inLoop = true)
    (hss : PrunedBody Stmt.Pruned true ss ss') :
    Chained ctx ctx' fuel ((Task.turns scope l c ss flags).plan ctx)
      ((Task.turns scope l c ss' flags).plan ctx') := by
  refine (h.self _).bind fun v _ ↦ (h.self _).bind fun _ _ ↦ .ite (fun _ ↦ ?_) fun _ ↦ .pure _
  refine (h.block scope [] hf (hl ▸ hss)).bind fun flags' hyields ↦ .ite (fun _ ↦ .pure _) ?_
  intro hgoes
  have hl' : flags'.nextTurn.inLoop = true :=
    flags'.inLoop_nextTurn.trans
      ((hyields.elim (·.inLoop_block hf) (·.inLoop_block hf)).trans hl)
  exact h.turns scope l c (Flags.stops_nextTurn hgoes) hl' hss

private theorem visits_succ (h : Tracked ctx ctx' fuel) (scope : ScopeId) (vars : LoopVars)
    (walk : Walk) {ss ss' : List Stmt} {flags : Flags} (hf : flags.stops = false)
    (hl : flags.inLoop = true)
    (hss : PrunedBody Stmt.Pruned true ss ss') :
    Chained ctx ctx' fuel ((Task.visits scope vars ss walk flags).plan ctx)
      ((Task.visits scope vars ss' walk flags).plan ctx') := by
  refine (h.self _).bind fun next _ ↦ ?_
  cases next with
  | none => exact .pure _
  | some next =>
    obtain ⟨key, value, walk'⟩ := next
    refine (h.block scope _ hf (hl ▸ hss)).bind fun flags' hyields ↦ .ite (fun _ ↦ .pure _) ?_
    intro hgoes
    have hl' : flags'.nextTurn.inLoop = true :=
      flags'.inLoop_nextTurn.trans
        ((hyields.elim (·.inLoop_block hf) (·.inLoop_block hf)).trans hl)
    exact h.visits scope vars walk' (Flags.stops_nextTurn hgoes) hl' hss

private theorem call_succ (h : Tracked ctx ctx' fuel) (hctx : ctx.Pruned ctx') (name : Bytes)
    (arguments : List Value) (site : Token) :
    Chained ctx ctx' (fuel + 1) (.call name arguments site) (.call name arguments site) := by
  intro m
  simp only [run, callFunction_eq_resolve, Context.resolve_eq, hctx.builtins,
    Builtin.plan_congr ctx ctx']
  have hf := hctx.functions name
  generalize ctx.functions[name]? = f? at hf
  generalize ctx'.functions[name]? = f'? at hf
  cases hf with
  | @some f f' hf =>
    simp only [hf.parameters, hf.name]
    by_cases harity : arguments.length = f.parameters.length
    · simp only [if_pos harity]
      refine Chain.frame hctx.maxDepth _ _ m fun m' ↦ ?_
      have hblock : Chained ctx ctx' fuel
          (Plan.block .global (f.parameters.zip arguments) f.body {})
          (Plan.block .global (f.parameters.zip arguments) f'.body {}) :=
        h.block .global (f.parameters.zip arguments) rfl hf.body
      simp only [Function.plan, hf.parameters]
      exact hblock.bind (fun _ _ ↦ .pure _) m'
    · simp only [if_neg harity]
      exact Chain.refl _
  | none =>
    cases ctx.builtins[name]? with
    | some b => exact Chain.frame hctx.maxDepth _ _ m (h.self (b.plan ctx arguments site))
    | none => exact Chain.refl _

end Tracked

end Plans
end Scriptlet
