import Scriptlet.Proofs.Evaluation.Plan
import Scriptlet.Proofs.Evaluation.Success

/-!
# How runs end

A run ends with a result or stops, and leaves a machine in either case. A run that has not
stopped for want of fuel has finished: with more fuel it ends in the same way.
-/

namespace Scriptlet

variable [Host]

namespace Exec

/-- How a run ends: with a result or a stop, and the machine that it leaves. -/
abbrev Ending (α : Type) := EStateM.Result Stop Machine α

variable {α β : Type}

namespace Ending

/-- The machine that a run leaves, whether it ends or stops. -/
def machine : Ending α → Machine
  | .ok _ m | .error _ m => m

/-- What a run ends with. -/
def result : Ending α → Except Stop α
  | .ok a _ => .ok a
  | .error stop _ => .error stop

/-- Whether a run has not run out of fuel. -/
def Finished : Ending α → Prop
  | .ok _ _ => True
  | .error stop _ => stop ≠ .outOfFuel

/-- A run that has failed has not run out of fuel. -/
theorem finished_error (e : ScriptError) (m : Machine) :
    Finished (.error (.error e) m : Ending α) := by
  intro h
  cases h

end Ending

/-- What is done at the end in any case does not fail. -/
theorem exists_of_andThenAlways_eq_error {x : Exec α} {g : Machine → Machine} {m m' : Machine}
    {stop : Stop} (h : andThenAlways x g m = .error stop m') : ∃ m₁, x m = .error stop m₁ := by
  simp only [andThenAlways] at h
  cases hr : x m with
  | ok a m₁ =>
    rw [hr] at h
    cases h
  | error stop' m₁ =>
    rw [hr] at h
    cases h
    exact ⟨m₁, rfl⟩

/-- If one run comes to an end, another one comes to the same end. -/
def Leads (r r' : Ending α) : Prop := r.Finished → r' = r

namespace Leads

variable {x x' : Exec α} {f f' : α → Exec β} {m : Machine}

/-- Sequences lead as their parts do. -/
theorem bind (hx : Leads (x m) (x' m))
    (hf : ∀ a m₁, x m = .ok a m₁ → Leads (f a m₁) (f' a m₁)) :
    Leads ((x >>= f) m) ((x' >>= f') m) := by
  intro hfinished
  cases hr : x m with
  | ok a m₁ =>
    have hr' : x' m = .ok a m₁ := by rw [hx (by rw [hr]; exact trivial), hr]
    rw [bind_of_ok hr] at hfinished
    rw [bind_of_ok hr, bind_of_ok hr']
    exact hf a m₁ hr hfinished
  | error stop m₁ =>
    simp only [Bind.bind, EStateM.bind, hr] at hfinished ⊢
    have hr' : x' m = .error stop m₁ := by rw [hx (by rw [hr]; exact hfinished), hr]
    rw [hr']

/-- What is done at the end in any case does not matter. -/
theorem always (g : Machine → Machine) (hx : Leads (x m) (x' m)) :
    Leads (andThenAlways x g m) (andThenAlways x' g m) := by
  intro hfinished
  have hr : x' m = x m := by
    apply hx
    rw [andThenAlways] at hfinished
    cases hr : x m with
    | ok a m₁ => exact trivial
    | error stop m₁ =>
      rw [hr] at hfinished
      exact hfinished
  rw [andThenAlways, andThenAlways, hr]

/-- Nor does it matter that errors are caught, for fuel that runs out is no error. -/
theorem attempt (hx : Leads (x m) (x' m)) : Leads (attempt x m) (attempt x' m) := by
  intro hfinished
  have hr : x' m = x m := by
    apply hx
    rw [Exec.attempt] at hfinished
    cases hr : x m with
    | ok a m₁ => exact trivial
    | error stop m₁ =>
      rintro rfl
      rw [hr] at hfinished
      exact hfinished rfl
  rw [Exec.attempt, Exec.attempt, hr]

private theorem frame (ctx : Context) (callee : Bytes) (l : Location) (m : Machine)
    (h : ∀ m', Leads (x m') (x' m')) :
    Leads (withFrame ctx callee l x m) (withFrame ctx callee l x' m) := by
  simp only [withFrame]
  split
  · exact fun _ ↦ rfl
  · exact (h _).always _

end Leads
end Exec

open Exec

namespace Plan

variable {ctx : Context} {α : Type}

private theorem leads_of (fuel : Nat) (p : Plan α)
    (htask : ∀ {β : Type} (t : Task β) m, Leads (t.run ctx fuel m) (t.run ctx (fuel + 1) m))
    (hcall : ∀ name arguments site m, Leads (callFunction ctx fuel name arguments site m)
      (callFunction ctx (fuel + 1) name arguments site m)) (m : Machine) :
    Leads (p.run ctx fuel m) (p.run ctx (fuel + 1) m) := by
  induction p generalizing m with
  | piece x => exact fun _ ↦ rfl
  | task t => exact htask t m
  | call name arguments site => exact hcall name arguments site m
  | bind p rest ihp ihrest => exact (ihp m).bind fun a m₁ _ ↦ ihrest a m₁
  | inScope parent body ih => exact (ih _ _).always _
  | attempt p ih => exact (ih m).attempt

private theorem leads_succ (ctx : Context) (fuel : Nat) :
    (∀ {β : Type} (t : Task β) m, Leads (t.run ctx fuel m) (t.run ctx (fuel + 1) m)) ∧
      ∀ name arguments site m, Leads (callFunction ctx fuel name arguments site m)
        (callFunction ctx (fuel + 1) name arguments site m) := by
  induction fuel with
  | zero =>
    constructor
    · intro β t m hfinished
      rw [t.run_zero] at hfinished
      exact absurd rfl hfinished
    · intro name arguments site m hfinished
      rw [callFunction] at hfinished
      exact absurd rfl hfinished
  | succ fuel ih =>
    constructor
    · intro β t m
      rw [t.run_succ, t.run_succ]
      exact leads_of fuel _ ih.1 ih.2 m
    · intro name arguments site m
      rw [callFunction_succ, callFunction_succ]
      cases ctx.resolve name arguments site m.lessons with
      | ok callee => exact .frame _ _ _ m (leads_of fuel callee.body ih.1 ih.2)
      | error cause => exact fun _ ↦ rfl

/-- More fuel does not change how a run ends that has not run out of it. -/
theorem run_of_le (p : Plan α) {m : Machine} {fuel more : Nat} (hle : fuel ≤ more)
    (h : Ending.Finished (p.run ctx fuel m)) : p.run ctx more m = p.run ctx fuel m := by
  induction hle with
  | refl => rfl
  | @step more hle ih =>
    have hnext := leads_of more p (leads_succ ctx more).1 (leads_succ ctx more).2 m
    rw [hnext (ih.symm ▸ h), ih]

end Plan
end Scriptlet
