import Scriptlet.Proofs.Evaluation.Operations
import Scriptlet.Proofs.Evaluation.Trace

/-!
# Loops over containers

A loop asks its walk for a visit in one round after the other, and runs its body in between. If
a body alters the container that the loop goes over, be it in a call, in a loop inside, or under
another name, the walk refuses the next visit, at the place of the loop, and the loop ends there.
If no body does, the walk does not refuse, however much was written over.
-/

namespace Scriptlet

open Exec Plan Moment

namespace Walk

/-- The walk goes over the container `c`, which had the stamp `n` when it was started. -/
def Watches (c : Container) (n : Nat) (w : Walk) : Prop :=
  w.exhausted = false ∧
    match c with
    | .array r => ∃ i, w.cursor = .array r n i
    | .dict r => ∃ i, w.cursor = .dict r n i

variable {w : Walk} {h : Heap} {c : Container} {n : Nat}

private theorem exists_start (h : Heap) (c : Container) (l : Location) :
    ∃ w, start h c.handle l = .ok w ∧ w.Watches c (h.stamp c) ∧ w.location = l := by
  cases c with
  | array r => exact ⟨_, rfl, ⟨rfl, 0, rfl⟩, rfl⟩
  | dict r => exact ⟨_, rfl, ⟨rfl, 0, rfl⟩, rfl⟩

/-- A walk refuses its next visit once its container has another stamp. -/
theorem Watches.refuses (hw : w.Watches c n) (hn : h.stamp c ≠ n) :
    ∃ e, w.visit? h = .error e ∧ e.kind = .iterationInvalidated ∧ e.location = w.location := by
  obtain ⟨running, hcursor⟩ := hw
  cases c with
  | array r =>
    obtain ⟨i, hi⟩ := hcursor
    refine ⟨⟨.lengthChanged n (h.array r).size, w.location⟩, ?_, rfl, rfl⟩
    have hsize : (h.array r).size ≠ n := hn
    simp [visit?, next, running, hi, Cursor.advance, hsize]
  | dict r =>
    obtain ⟨i, hi⟩ := hcursor
    refine ⟨⟨.keysChanged, w.location⟩, ?_, rfl, rfl⟩
    have hversion : (h.dict r).version ≠ n := hn
    simp [visit?, next, running, hi, Cursor.advance, hversion]

/-- As long as the container has the same stamp, the walk gives what it has, and goes on
watching. -/
theorem Watches.visits (hw : w.Watches c n) (hn : h.stamp c = n) :
    w.visit? h = .ok none ∨
      ∃ key v w', w.visit? h = .ok (some (key, v, w')) ∧ w'.Watches c n := by
  obtain ⟨running, hcursor⟩ := hw
  cases c with
  | array r =>
    obtain ⟨i, hi⟩ := hcursor
    have hsize : (h.array r).size = n := hn
    cases he : (h.array r)[i]? with
    | none =>
      left
      simp [visit?, next, running, hi, Cursor.advance, hsize, he]
    | some v =>
      right
      refine ⟨.int (Int64.ofNat i), v, { w with cursor := .array r n (i + 1) }, ?_, running,
        i + 1, rfl⟩
      simp [visit?, next, running, hi, Cursor.advance, hsize, he]
  | dict r =>
    obtain ⟨i, hi⟩ := hcursor
    have hversion : (h.dict r).version = n := hn
    cases he : Cursor.nextLive (h.dict r).slots i with
    | none =>
      left
      simp [visit?, next, running, hi, Cursor.advance, hversion, he]
    | some found =>
      right
      obtain ⟨j, slot⟩ := found
      refine ⟨slot.key.toValue, slot.value, { w with cursor := .dict r n (j + 1) }, ?_, running,
        j + 1, rfl⟩
      simp [visit?, next, running, hi, Cursor.advance, hversion, he]

private theorem Watches.of_visit? (hw : w.Watches c n) {key v : Value} {w' : Walk}
    (hv : w.visit? h = .ok (some (key, v, w'))) :
    h.stamp c = n ∧ w'.Watches c n ∧ w'.location = w.location := by
  have hl := w.location_next h
  rw [next_of_visit? hv] at hl
  by_cases hn : h.stamp c = n
  · rcases hw.visits hn with hnone | ⟨key', v', w'', hsome, hw'⟩
    · cases hv.symm.trans hnone
    · cases hv.symm.trans hsome
      exact ⟨hn, hw', hl⟩
  · obtain ⟨e, he, -⟩ := hw.refuses hn
    cases hv.symm.trans he

end Walk

/-- A loop over a value, about to ask its walk for the next visit. -/
structure Round where
  fuel : Nat
  scope : ScopeId
  vars : LoopVars
  body : List Stmt
  walk : Walk
  flags : Flags
  machine : Machine

namespace Round

variable {ctx : Context} {p q r : Round} {c : Container} {n : Nat}

/-- The round as a moment of the run. -/
def moment (p : Round) : Moment :=
  ⟨p.fuel, .task (.visits p.scope p.vars p.body p.walk p.flags), p.machine⟩

/-- What the walk answers in this round: a visit, the end, or a refusal. -/
def visit? (p : Round) : Except ScriptError (Option (Value × Value × Walk)) :=
  p.walk.visit? p.machine.heap

/-- From one round to the next: the walk gives a visit, and the body that is run for it asks the
loop to go on. -/
inductive Turn (ctx : Context) : Round → Moment → Round → Prop where
  | mk {fuel : Nat} {scope : ScopeId} {vars : LoopVars} {statements : List Stmt}
      {walk walk' : Walk} {flags flags' : Flags} {m m' : Machine} {key v : Value}
      (visited : walk.visit? m.heap = .ok (some (key, v, walk')))
      (done : (block scope (vars.bindings walk'.overDict key v) statements flags).run ctx fuel m =
        .ok flags' m')
      (onward : (flags'.didReturn || flags'.didBreak) = false) :
      Turn ctx ⟨fuel + 1, scope, vars, statements, walk, flags, m⟩
        ⟨fuel, block scope (vars.bindings walk'.overDict key v) statements flags, m⟩
        ⟨fuel, scope, vars, statements, walk', flags'.nextTurn, m'⟩

/-- Any number of turns, with the runs of the body that lie between the two rounds. -/
inductive Turns (ctx : Context) (p : Round) : List Moment → Round → Prop where
  | refl : Turns ctx p [] p
  | tail {bodies : List Moment} {body : Moment} {q r : Round} (before : Turns ctx p bodies q)
      (turn : Turn ctx q body r) : Turns ctx p (bodies ++ [body]) r

private theorem Turn.passes {body : Moment} (h : Turn ctx p body q) :
    Passes ctx p.moment body ∧ Passes ctx p.moment q.moment := by
  cases h with
  | @mk fuel scope vars statements walk walk' flags flags' m m' key v visited done onward =>
    -- Both lie behind the visit: the body first, then the rest of the loop.
    have hvisit : (piece (consult walk.visit?)).run ctx fuel m = .ok (some (key, v, walk')) m :=
      (consult_eq_ok_iff _ _ _ _).mpr ⟨visited, rfl⟩
    have hbody : Passes ctx ⟨fuel + 1, .task (.visits scope vars statements walk flags), m⟩
        ⟨fuel, (do
          let flags ← block scope (vars.bindings walk'.overDict key v) statements flags
          if flags.didReturn || flags.didBreak then pure flags
          else task (.visits scope vars statements walk' flags.nextTurn)), m⟩ :=
      (Relation.ReflTransGen.single (.task fuel _ m)).tail (.next _ hvisit)
    refine ⟨hbody.tail (.first _ _ _ _), ?_⟩
    have hrest := hbody.tail (.next _ done)
    rwa [if_neg (by rw [onward]; exact Bool.false_ne_true)] at hrest

private theorem Turns.passes {bodies : List Moment} (h : Turns ctx p bodies q) :
    Passes ctx p.moment q.moment := by
  induction h with
  | refl => exact Relation.ReflTransGen.refl
  | tail _ turn ih => exact ih.trans turn.passes.2

private theorem Turn.traced {body : Moment} (h : Turn ctx p body q) (hc : p.machine.heap.Has c) :
    Heap.Traced c (body.Altered ctx c) p.machine.heap q.machine.heap := by
  cases h with
  | @mk fuel scope vars statements walk walk' flags flags' m m' key v visited done onward =>
    have hbody : Moment.Within ctx .all
        ⟨fuel, block scope (vars.bindings walk'.overDict key v) statements flags, m⟩ :=
      within_block (fun _ _ ↦ trivial) _ _ _ m
    have htraced := hbody.traced hc
    simp only [Moment.ending, done] at htraced
    exact htraced

/-- Any number of turns alter a container exactly if the body of one of them does. -/
theorem Turns.traced {bodies : List Moment} (h : Turns ctx p bodies q)
    (hc : p.machine.heap.Has c) :
    Heap.Traced c (∃ b ∈ bodies, b.Altered ctx c) p.machine.heap q.machine.heap := by
  induction h with
  | refl => exact Heap.Traced.refl hc (by simp)
  | @tail bodies body q r before turn ih =>
    apply (ih.trans (turn.traced ih.has)).congr
    simp only [List.mem_append, List.mem_singleton, or_and_right, exists_or, exists_eq_left]

/-- In every later round the walk watches the same container at the same place. -/
theorem Turns.watches {bodies : List Moment} (h : Turns ctx p bodies q)
    (hw : p.walk.Watches c n) :
    q.walk.Watches c n ∧ q.walk.location = p.walk.location := by
  induction h with
  | refl => exact ⟨hw, rfl⟩
  | tail _ turn ih =>
    obtain ⟨hwatches, hl⟩ := ih
    cases turn with
    | mk visited done onward =>
      obtain ⟨-, hw', hl'⟩ := hwatches.of_visit? visited
      exact ⟨hw', hl'.trans hl⟩

private theorem stopsWith_of_visit? {e : ScriptError} (he : p.visit? = .error e) (hf : p.fuel ≠ 0) :
    p.moment.StopsWith ctx (.error e) := by
  obtain ⟨fuel, scope, vars, statements, walk, flags, m⟩ := p
  obtain ⟨fuel, rfl⟩ := Nat.exists_eq_succ_of_ne_zero hf
  have hfails : consult walk.visit? m = .error (.error e) m := by
    rw [visit?] at he
    simp only [consult, he]
  have hpass : Passes ctx ⟨fuel + 1, .task (.visits scope vars statements walk flags), m⟩
      ⟨fuel, piece (consult walk.visit?), m⟩ :=
    (Relation.ReflTransGen.single (.task fuel _ m)).tail (.first _ _ _ _)
  exact hpass.stops ⟨m, hfails⟩

end Round

/-- Whether a loop with these variables can go over a container: two need a dictionary. -/
def LoopVars.Fits (vars : LoopVars) (c : Container) : Prop :=
  (∃ name, vars = .single name) ∨ c.handle.type = .dictionary

namespace Moment

variable {ctx : Context} {fuel : Nat} {scope : ScopeId} {l : Location} {vars : LoopVars}
  {iterable : Expr} {statements : List Stmt} {flags : Flags} {m m₀ : Machine} {c : Container}
  {walk : Walk}

private theorem passes_first (evaluated : evalExpr ctx fuel scope iterable m = .ok c.handle m₀)
    (fits : vars.Fits c) (started : Walk.start m₀.heap c.handle l = .ok walk) :
    Passes ctx ⟨fuel + 1, .task (.stmt scope (.forEach l vars iterable statements) flags), m⟩
      (Round.moment ⟨fuel, scope, vars, statements, walk, flags.enterLoop, m₀⟩) := by
  have hvalue : (eval scope iterable).run ctx fuel m = .ok c.handle m₀ := evaluated
  have hwalk : (piece (consult fun h ↦ Walk.start h c.handle l)).run ctx fuel m₀ =
      .ok walk m₀ := (consult_eq_ok_iff _ _ _ _).mpr ⟨started, rfl⟩
  have hloop : Passes ctx
      ⟨fuel + 1, .task (.stmt scope (.forEach l vars iterable statements) flags), m⟩
      ⟨fuel, (do
        let walk ← piece (consult fun h ↦ Walk.start h c.handle l)
        let inner ← task (.visits scope vars statements walk flags.enterLoop)
        pure (inner.leaveLoop flags)), m₀⟩ := by
    have hplan := Relation.ReflTransGen.single (@Enters.task _ ctx _ fuel
      (.stmt scope (.forEach l vars iterable statements) flags) m)
    have hnext := hplan.tail (.next _ hvalue)
    rcases fits with ⟨name, rfl⟩ | hdict
    · exact hnext
    · cases vars with
      | single name => exact hnext
      | pair keyName valueName =>
        rw [hdict] at hnext
        exact hnext
  exact (hloop.tail (.next _ hwalk)).tail (.first _ _ _ _)

/-- No evaluation makes an array shorter. A loop over a container that some body between its
start and a later round has altered refuses the visit of that round, at its own place, and with
it stops everything around it; if no body has, the visit is not refused. -/
theorem changes_noticed (ctx : Context) :
    (∀ {α : Type} (t : Task α) (fuel : Nat) (m : Machine) (r : ArrayRef),
      m.heap.Has (.array r) →
        (m.heap.array r).size ≤ ((Ending.machine (t.run ctx fuel m)).heap.array r).size) ∧
    ∀ (fuel : Nat) (scope : ScopeId) (l : Location) (vars : LoopVars) (iterable : Expr)
      (statements : List Stmt) (flags : Flags) (m m₀ : Machine) (c : Container),
      evalExpr ctx fuel scope iterable m = .ok c.handle m₀ → m₀.heap.Has c → vars.Fits c →
      let loop : Moment :=
        ⟨fuel + 1, .task (.stmt scope (.forEach l vars iterable statements) flags), m⟩
      ∃ walk, Walk.start m₀.heap c.handle l = .ok walk ∧
        let first : Round := ⟨fuel, scope, vars, statements, walk, flags.enterLoop, m₀⟩
        Passes ctx loop first.moment ∧
        ∀ (bodies : List Moment) (later : Round), Round.Turns ctx first bodies later →
          ((∃ b ∈ bodies, b.Altered ctx c) → ∃ e, later.visit? = .error e ∧
            e.kind = .iterationInvalidated ∧ e.location = l ∧
            (later.fuel ≠ 0 → ∀ o, Passes ctx o loop → o.StopsWith ctx (.error e))) ∧
          ((∀ b ∈ bodies, ¬ b.Altered ctx c) → ∃ next, later.visit? = .ok next) := by
  refine ⟨fun t fuel m r hr ↦ t.size_le fuel m hr, ?_⟩
  intro fuel scope l vars iterable statements flags m m₀ c evaluated has fits loop
  obtain ⟨walk, started, hwatches, hl⟩ := Walk.exists_start m₀.heap c l
  have hfirst : Passes ctx loop _ := passes_first evaluated fits started
  refine ⟨walk, started, hfirst, fun bodies later hturns ↦ ?_⟩
  obtain ⟨hlater, hplace⟩ := hturns.watches hwatches
  have htraced := hturns.traced has
  constructor
  · intro altered
    obtain ⟨e, he, hkind, hat⟩ := hlater.refuses (Nat.ne_of_gt (htraced.rises altered))
    refine ⟨e, he, hkind, hat.trans (hplace.trans hl), fun hfuel o ho ↦ ?_⟩
    exact Passes.stops ((ho.trans hfirst).trans hturns.passes)
      (Round.stopsWith_of_visit? he hfuel)
  · intro untouched
    have hsame := htraced.stays fun ⟨b, hb, ha⟩ ↦ untouched b hb ha
    rcases hlater.visits hsame with hnone | ⟨key, v, w', hsome, -⟩
    · exact ⟨none, hnone⟩
    · exact ⟨_, hsome⟩

/-- A loop over an array of one element that each turn pushes onto. -/
theorem changes_noticed_push :
    let ctx : Context := { builtins := Builtin.defaultTable }
    let push : Stmt := .evaluate {} (.call {} .absent "push" [.ident {} "xs", .ident {} "x"])
    let m : Machine :=
      { heap := (({} : Heap).newArray #[.int 1]).2
        scopes := (Scopes.enter {} none).2.bind .global "xs" (.array ⟨0⟩) }
    let loop : Stmt := .forEach { line := 3 } (.single "x") (.ident {} "xs") [push]
    evalExpr ctx 8 .global (.ident {} "xs") m = .ok (.array ⟨0⟩) m ∧ m.heap.Has (.array ⟨0⟩) ∧
      ∃ e : ScriptError, e.kind = .iterationInvalidated ∧ e.location = { line := 3 } ∧
        StopsWith ctx ⟨9, .task (.stmt .global loop {}), m⟩ (.error e) := by
  intro ctx push m loop
  have hvalue : evalExpr ctx 8 .global (.ident {} "xs") m = .ok (.array ⟨0⟩) m := by
    have hlookup : m.scopes.lookup? .global "xs" = some (.array ⟨0⟩) := by decide +kernel
    simp only [evalExpr]
    exact (lookup_eq_ok_iff _ _ _ _ _ _).mpr ⟨hlookup, rfl⟩
  have hhas : m.heap.Has (.array ⟨0⟩) := Nat.zero_lt_one
  refine ⟨hvalue, hhas, ?_⟩
  obtain ⟨walk, started, -, h⟩ := (changes_noticed ctx).2 8 .global { line := 3 } (.single "x")
    (.ident {} "xs") [push] {} m m (.array ⟨0⟩) hvalue hhas (Or.inl ⟨"x", rfl⟩)
  cases started
  -- One turn later the array has two elements.
  let body : Plan Flags := block .global [("x", .int 1)] [push] (Flags.enterLoop {})
  have hresult : (Ending.result (body.run ctx 7 m)).toOption = some (Flags.enterLoop {}) := by
    decide +kernel
  have hstamp : (Ending.machine (body.run ctx 7 m)).heap.stamp (.array ⟨0⟩) = 2 := by
    decide +kernel
  cases hr : body.run ctx 7 m with
  | error stop m' =>
    rw [hr] at hresult
    cases hresult
  | ok flags m' =>
    rw [hr] at hresult hstamp
    cases hresult
    have hturn := @Round.Turn.mk ctx 7 .global (.single "x") [push]
      ⟨.array ⟨0⟩ 1 0, { line := 3 }, false⟩ ⟨.array ⟨0⟩ 1 1, { line := 3 }, false⟩
      (Flags.enterLoop {}) (Flags.enterLoop {}) m m' (.int 0) (.int 1) rfl hr rfl
    have haltered : Altered ctx (.array ⟨0⟩) ⟨7, body, m⟩ := by
      apply Classical.byContradiction
      intro hn
      have hs := hstamp.symm.trans ((hturn.traced hhas).stays hn)
      cases hs
    obtain ⟨e, -, hkind, hl, hstop⟩ :=
      (h _ _ (.tail .refl hturn)).1 ⟨_, List.mem_singleton.mpr rfl, haltered⟩
    exact ⟨e, hkind, hl, hstop (Nat.succ_ne_zero 6) _ Relation.ReflTransGen.refl⟩

end Moment
end Scriptlet
