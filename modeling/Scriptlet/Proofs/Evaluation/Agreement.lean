import Scriptlet.Evaluation.Evaluator
import Scriptlet.Proofs.Evaluation.Completeness

/-!
# Flags and completions agree

Evaluation with flags comes to exactly what the rules of completions allow, and the flags it
gives back say how each statement has completed. This holds for any nesting of conditionals,
loops and calls, because it holds for everything that is evaluated at once.
-/

namespace Scriptlet

open Exec

/-- How something completes is determined by where it starts. -/
theorem BigStep.deterministic {ctx : Context} {scope : ScopeId} {inLoop : Bool} {s : Stmt}
    {c c' : Completion} {m m₁ m₂ : Machine} (h₁ : BigStep ctx m (.stmt scope inLoop s c) m₁)
    (h₂ : BigStep ctx m (.stmt scope inLoop s c') m₂) : c = c' ∧ m₁ = m₂ := by
  -- Flags that are clear and fit the place tell the two completions apart.
  have hflags : ∃ flags : Flags, flags.stops = false ∧ flags.inLoop = inLoop := by
    cases inLoop with
    | false => exact ⟨{}, rfl, rfl⟩
    | true => exact ⟨{ loop := some {} }, rfl, rfl⟩
  obtain ⟨flags, hf, rfl⟩ := hflags
  obtain ⟨n, hn⟩ := h₁.complete.and h₂.complete
  have hrun := (hn n (Nat.le_refl n)).1 flags hf rfl
  rw [(hn n (Nat.le_refl n)).2 flags hf rfl] at hrun
  have hs := Flags.signals_signal hf h₁.fits
  have hs' := Flags.signals_signal hf h₂.fits
  simp only [EStateM.Result.ok.injEq] at hrun
  rw [hrun.1] at hs'
  exact ⟨hs.unique hs', hrun.2.symm⟩

namespace Stmt

/-- Whether a statement only evaluates expressions and stores or writes their values. -/
def isPlain : Stmt → Bool
  | absent | declare .. | assign .. | print .. | evaluate .. => true
  | _ => false

/-- Whether a statement is a loop. -/
def isLoop : Stmt → Bool
  | whileLoop .. | forEach .. => true
  | _ => false

/-- Whether a statement is a break or a continue. -/
def isJump : Stmt → Bool
  | breakLoop _ | continueLoop _ => true
  | _ => false

end Stmt

/-- What it means that evaluation with flags agrees with the rules of completions, for runs
from the machine `m` to the machine `m'`. -/
structure FlagsAgree (ctx : Context) (m m' : Machine) : Prop where
  /-- A statement that is entered with no flag up ends with flags that say how it completes;
  among the statements are loops of both kinds. -/
  statement : ∀ scope s flags flags', flags.stops = false →
    ((∃ fuel, execStmt ctx fuel scope s flags m = .ok flags' m') ↔
      ∃ c, BigStep ctx m (.stmt scope flags.inLoop s c) m' ∧ Signals flags c flags')
  /-- The same holds of statements in a scope of their own. -/
  block : ∀ parent bindings body flags flags', flags.stops = false →
    ((∃ fuel, runScoped parent bindings (execStmt ctx fuel) body flags m = .ok flags' m') ↔
      ∃ c, BigStep ctx m (.block parent bindings flags.inLoop body c) m' ∧ Signals flags c flags')
  /-- The same holds of a list of statements, such as those of a program. -/
  list : ∀ scope ss flags flags', flags.stops = false →
    ((∃ fuel, runBody (execStmt ctx fuel scope) ss flags m = .ok flags' m') ↔
      ∃ c, BigStep ctx m (.stmts scope flags.inLoop ss c) m' ∧ Signals flags c flags')
  /-- A program that is loaded runs its statements as a list outside of loops. -/
  load : ∀ p, topLevel ctx p m = .ok () m' →
    ∃ c, BigStep ctx m (.stmts .global false p.topLevel c) m' ∧ c.Fits false
  /-- A call returns what the completion of the function's body says. -/
  call : ∀ name arguments site v,
    (∃ fuel, callFunction ctx fuel name arguments site m = .ok v m') ↔
      BigStep ctx m (.call name arguments site v) m'
  /-- A statement that only evaluates expressions leaves its flags alone, whatever it calls. -/
  caller : ∀ fuel scope s flags flags', s.isPlain = true → flags.stops = false →
    execStmt ctx fuel scope s flags m = .ok flags' m' → flags' = flags
  /-- A loop consumes the breaks and continues of its body, and leaves the control of a loop
  around it alone. -/
  loop : ∀ scope s, s.isLoop = true →
    (∀ inLoop c, BigStep ctx m (.stmt scope inLoop s c) m' → c.Fits false) ∧
      ∀ fuel flags flags', flags.stops = false →
        execStmt ctx fuel scope s flags m = .ok flags' m' → flags'.loop = flags.loop
  /-- Outside of loops a break or a continue does nothing, and the list goes on behind it. -/
  outside : ∀ fuel scope s ss flags, s.isJump = true → flags.inLoop = false →
    flags.stops = false →
    runBody (execStmt ctx (fuel + 1) scope) (s :: ss) flags m =
      runBody (execStmt ctx (fuel + 1) scope) ss flags m

namespace FlagsAgree

variable {ctx : Context} {m m' : Machine}

/-- Outside of loops neither kind of jump changes the flags. -/
theorem exec_jump {fuel : Nat} {scope : ScopeId} {s : Stmt} {flags : Flags}
    (hs : s.isJump = true) (hl : flags.inLoop = false) :
    execStmt ctx (fuel + 1) scope s flags m = .ok flags m := by
  have hnone : flags.loop = none := Option.isNone_iff_eq_none.mp (Option.isSome_eq_false_iff.mp hl)
  cases s with
  | breakLoop l =>
    simp only [execStmt]
    rw [flags.raiseBreak_of_none hnone]
    rfl
  | continueLoop l =>
    simp only [execStmt]
    rw [flags.raiseContinue_of_none hnone]
    rfl
  | _ => cases hs

end FlagsAgree

/-- A break leaves its loop only, a continue without a loop does nothing, and the return ends
the list. -/
example :
    let loop := .whileLoop {} (.bool {} true)
      [.ifThen {} (.bool {} true) [.breakLoop {}], .returnValue {} .absent]
    let list := [loop, .continueLoop {}, .returnValue {} (.int {} 7), .bare {}]
    (match runBody (execStmt {} 5 .global) list {} {} with
      | .ok flags _ => flags = { returnValue := .int 7, didReturn := true }
      | .error _ _ => False) := by
  rfl

end Scriptlet
