import Scriptlet.Proofs.Evaluation.Congruence

/-!
# Raising the limit of nested calls

How deep calls may nest is looked at in one place only, where a call begins. So a run that ends
without a call being one too many is the same run under every higher limit, and a run that does
not has written, when it stops, the beginning of what it writes under a higher limit.
-/

namespace Scriptlet

/-- Whether it is an error other than that a call was one too many. -/
def Stop.Settles : Stop → Prop
  | .error e => e.kind ≠ .stackOverflow
  | .outOfFuel => False

namespace Exec

variable {α β : Type}

/-- Whether a run has come to an end of its own: no call was one too many. -/
def Ending.Settled : Ending α → Prop
  | .ok _ _ => True
  | .error stop _ => stop.Settles

/-- What a run that starts on `m` comes to under a higher limit: to the same if it had settled,
and if a call was one too many, to something that has written at least as much. -/
structure Continues (α : Type) (m : Machine) (r r' : Ending α) : Prop where
  same : r.Settled → r' = r
  grows : m.output.toList <+: r'.machine.output.toList
  overflow : ∀ e m₁, r = .error (.error e) m₁ → e.kind = .stackOverflow →
    m₁.output.toList <+: r'.machine.output.toList

namespace Continues

variable {m : Machine} {r r' : Ending α} {x x' : Exec α} {f f' : α → Exec β}

private theorem of_same (hm : m.output.toList <+: r.machine.output.toList) : Continues α m r r where
  same _ := rfl
  grows := hm
  overflow e m₁ hr _ := by
    rw [hr]
    exact List.prefix_refl _

private theorem grows_bind
    (hf : ∀ a m₁, x' m = .ok a m₁ →
      m₁.output.toList <+: (Ending.machine (f' a m₁)).output.toList) :
    (Ending.machine (x' m)).output.toList <+: (Ending.machine ((x' >>= f') m)).output.toList := by
  simp only [bind, EStateM.bind]
  cases hr : x' m with
  | ok a m₁ => exact hf a m₁ hr
  | error stop m₁ => exact List.prefix_refl _

private theorem seq (hx : Continues α m (x m) (x' m))
    (hf : ∀ a m₁, x m = .ok a m₁ ∨ x' m = .ok a m₁ → Continues β m₁ (f a m₁) (f' a m₁)) :
    Continues β m ((x >>= f) m) ((x' >>= f') m) := by
  have hgrows := grows_bind fun a m₁ hr ↦ (hf a m₁ (Or.inr hr)).grows
  cases hr : x m with
  | ok a m₁ =>
    -- The first part has settled, so both runs go on from the same machine.
    have hr' : x' m = .ok a m₁ := by
      rw [hx.same (by rw [hr]; exact trivial), hr]
    have hgoes := hf a m₁ (Or.inl hr)
    rw [bind_of_ok hr, bind_of_ok hr']
    refine ⟨hgoes.same, hx.grows.trans ?_, hgoes.overflow⟩
    rw [hr']
    exact hgoes.grows
  | error stop m₁ =>
    have hstop : (x >>= f) m = .error stop m₁ := by simp only [bind, EStateM.bind, hr]
    refine ⟨fun hs ↦ ?_, hx.grows.trans hgrows, fun e m₂ he hk ↦ ?_⟩
    · rw [hstop] at hs ⊢
      have hr' : x' m = .error stop m₁ := by
        rw [hx.same (by rw [hr]; exact hs), hr]
      simp only [bind, EStateM.bind, hr']
    · rw [hstop] at he
      cases he
      exact (hx.overflow e m₁ hr hk).trans hgrows

private theorem always (m₀ : Machine) (g : Machine → Machine) (hg : ∀ m, (g m).output = m.output)
    (hm : m.output = m₀.output) (h : Continues α m₀ (x m₀) (x' m₀)) :
    Continues α m (andThenAlways x g m₀) (andThenAlways x' g m₀) := by
  have hmachine (y : Exec α) : (Ending.machine (andThenAlways y g m₀)).output =
      (Ending.machine (y m₀)).output := by
    rw [andThenAlways]
    cases y m₀ <;> exact hg _
  refine ⟨fun hs ↦ ?_, ?_, fun e m₁ he hk ↦ ?_⟩
  · have hr : x' m₀ = x m₀ := by
      apply h.same
      rw [andThenAlways] at hs
      cases hx : x m₀ with
      | ok a m₁ => exact trivial
      | error stop m₁ =>
        rw [hx] at hs
        exact hs
    rw [andThenAlways, andThenAlways, hr]
  · rw [hmachine, hm]
    exact h.grows
  · rw [hmachine]
    rw [andThenAlways] at he
    cases hx : x m₀ with
    | ok a m₂ =>
      rw [hx] at he
      cases he
    | error stop m₂ =>
      rw [hx] at he
      cases he
      rw [hg]
      exact h.overflow e m₂ hx hk

private theorem frame {ctx ctx' : Context} (hd : ctx.maxDepth ≤ ctx'.maxDepth) (callee : Bytes)
    (location : Location) (m : Machine) (h : ∀ m', Continues α m' (x m') (x' m')) :
    Continues α m (withFrame ctx callee location x m) (withFrame ctx' callee location x' m) := by
  have hbody : Continues α m _ _ := always { m with depth := m.depth + 1 }
    (fun m ↦ { m with depth := m.depth - 1 }) (fun _ ↦ rfl) rfl (h _)
  by_cases hroom : ctx.maxDepth ≤ m.depth
  · have hfull : withFrame ctx callee location x m =
        raise (.depthExceeded ctx.maxDepth callee) location m := by rw [withFrame, if_pos hroom]
    rw [hfull]
    have hgrows : m.output.toList <+:
        (Ending.machine (withFrame ctx' callee location x' m)).output.toList := by
      rw [withFrame]
      split
      · exact List.prefix_refl _
      · exact hbody.grows
    refine ⟨fun hs ↦ absurd rfl hs, hgrows, fun e m₁ he _ ↦ ?_⟩
    cases he
    exact hgrows
  · have hroom' : ¬ ctx'.maxDepth ≤ m.depth := fun hle ↦ hroom (Nat.le_trans hd hle)
    rw [withFrame, withFrame, if_neg hroom, if_neg hroom']
    exact hbody

private theorem prefix_appendList (output : Array UInt8) (text : Bytes) :
    output.toList <+: (output.appendList text).toList := by
  rw [Array.appendList_eq_append, Array.toList_appendList]
  exact List.prefix_append _ _

/-- Every run continues under a higher limit. -/
theorem congruence {ctx ctx' : Context} (functions : ctx'.functions = ctx.functions)
    (builtins : ctx'.builtins = ctx.builtins) (hd : ctx.maxDepth ≤ ctx'.maxDepth) :
    Congruence ctx ctx' Continues where
  functions := functions
  builtins := builtins
  ok _ _ := of_same (List.prefix_refl _)
  error _ _ := of_same (List.prefix_refl _)
  edit _ _ _ _ := of_same (List.prefix_refl _)
  write text m := of_same (prefix_appendList m.output text)
  declare _ _ _ _ := of_same (List.prefix_refl _)
  seq := seq
  inScope _ _ h := always _ _ (fun _ ↦ rfl) rfl (h _ _)
  inFrame := frame hd

end Continues
end Exec

open Exec

/-- The evaluator with another limit. -/
def Evaluator.withLimit (ev : Evaluator) (limit : Nat) : Evaluator :=
  { ev with context := { ev.context with maxDepth := limit } }

/-- What the outcome of an operation is under a higher limit: the same, if no call was one too
many; otherwise it has written at least as much. -/
structure Outcome.Extends {α : Type} (o o' : Outcome α) : Prop where
  same : (∀ stop, o.result = .error stop → stop.Settles) →
    o'.result = o.result ∧ o'.output = o.output ∧ o'.heap = o.heap ∧
      o'.evaluator.scopes = o.evaluator.scopes ∧ o'.evaluator.depth = o.evaluator.depth
  overflow : ∀ e, o.result = .error (.error e) → e.kind = .stackOverflow → o.output <+: o'.output

namespace Evaluator

variable {α : Type}

/-- A computation that continues under a higher limit makes for an operation that does. -/
theorem perform_extends (ev ev' : Evaluator) (h : Heap) (action : Context → Exec α)
    (scopes : ev'.scopes = ev.scopes) (depth : ev'.depth = ev.depth)
    (hc : Continues α (ev.machine h) (action ev.context (ev.machine h))
      (action ev'.context (ev.machine h))) :
    (ev.perform h action).Extends (ev'.perform h action) := by
  have hmachine : ev'.machine h = ev.machine h := by
    rw [machine, machine, scopes, depth]
    rfl
  rw [perform_eq, perform_eq, hmachine]
  refine ⟨fun hs ↦ ?_, fun e he hk ↦ ?_⟩
  · have hsettled : Ending.Settled (action ev.context (ev.machine h)) := by
      cases hr : action ev.context (ev.machine h) with
      | ok a m => exact trivial
      | error stop m => exact hs stop (by rw [hr]; rfl)
    simp only [hc.same hsettled, outcome, leftWith, and_self]
  · cases hr : action ev.context (ev.machine h) with
    | ok a m =>
      rw [hr] at he
      cases he
    | error stop m =>
      rw [hr] at he
      cases he
      exact hc.overflow e m hr hk

private theorem learn_withLimit (ev : Evaluator) (limit : Nat) (p : Option Program) :
    (ev.withLimit limit).learn p = (ev.learn p).withLimit limit := by
  cases p <;> rfl

/-- Runs and calls that end without a call being one too many end in the same way under every
higher limit; the others have written the beginning of what is written then. -/
theorem extends_withLimit (ev : Evaluator) (h : Heap) (d d' : Nat) (hd : d ≤ d') :
    (∀ p entry, ((ev.withLimit d).run h p entry).Extends ((ev.withLimit d').run h p entry)) ∧
    ∀ name arguments site, ((ev.withLimit d).invoke h name arguments site).Extends
      ((ev.withLimit d').invoke h name arguments site) := by
  have hP (ev : Evaluator) : Congruence (ev.withLimit d).context (ev.withLimit d').context
      Continues := Continues.congruence rfl rfl hd
  constructor
  · intro p entry
    rw [run_eq, run_eq, learn_withLimit, learn_withLimit]
    exact perform_extends _ _ h _ rfl rfl ((hP (ev.learn p)).running ampleFuel p entry _)
  · intro name arguments site
    exact perform_extends _ _ h _ rfl rfl (((hP ev).compared ampleFuel).call name arguments site _)

/-- With room for one call only the second of two lines is missing. -/
theorem extends_withLimit_second_line :
    let next : Stmt := .function {} "next" [] [.print {} [.int {} 2]]
    let main : Stmt := .function {} "main" []
      [.print {} [.int {} 1], .evaluate {} (.call {} .absent "next" [])]
    let run (limit : Nat) := ((new 0).withLimit limit).run {} (some ⟨{}, [main, next]⟩) "main"
    1 ≤ 2 ∧ (run 1).Extends (run 2) ∧ (run 1).output = "1\n" ∧ (run 2).output = "1\n2\n" := by
  refine ⟨by decide, (extends_withLimit (new 0) {} 1 2 (by decide)).1 _ _, ?_, ?_⟩
  · decide +kernel
  · decide +kernel

end Evaluator
end Scriptlet
