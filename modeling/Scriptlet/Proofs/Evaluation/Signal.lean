import Scriptlet.Proofs.Evaluation.Completion

/-!
# Flags that signal completions

How a statement completes can be read off its flags, if none was up before it: a return with
its value, or a break or a continue for the loop around it, and never two of them. A loop
hands its body flags of its own, so what the body signals to it stays inside.
-/

namespace Scriptlet

namespace Flags

/-- Whether there is a loop around, inside the same function. -/
def inLoop (f : Flags) : Bool := f.loop.isSome

/-- The flags after a completion. -/
def signal (f : Flags) : Completion → Flags
  | .normal => f
  | .broke => f.raiseBreak
  | .continued => f.raiseContinue
  | .returned v => f.raiseReturn v

end Flags

/-- The flags `after` a statement say how it has completed, and no more than that. -/
structure Signals (before : Flags) (c : Completion) (after : Flags) : Prop where
  returned : ∀ v, after.didReturn = true ∧ after.returnValue = v ↔ c = .returned v
  broke : after.didBreak = true ↔ c = .broke
  continued : after.didContinue = true ↔ c = .continued
  atMostOne : [after.didReturn, after.didBreak, after.didContinue].count true ≤ 1
  /-- Without a return there is no new value to return. -/
  value : after.didReturn = false → after.returnValue = before.returnValue
  /-- The loop around is the same one, if there is one. -/
  inLoop : after.inLoop = before.inLoop

namespace Flags

variable {f : Flags} {c : Completion}

private theorem eq_of_not_stops (hf : f.stops = false) :
    f.didReturn = false ∧ (f.loop = none ∨ f.loop = some {}) := by
  obtain ⟨value, didReturn, loop⟩ := f
  cases loop with
  | none => simpa [stops, didBreak, didContinue] using hf
  | some l =>
    obtain ⟨didBreak, didContinue⟩ := l
    simp_all [stops, Flags.didBreak, Flags.didContinue]

/-- A list of statements stops at every completion that is not normal. -/
theorem stops_signal (hf : f.stops = false) (hc : c.Fits f.inLoop) :
    (f.signal c).stops = decide (c ≠ .normal) := by
  obtain ⟨hr, hl | hl⟩ := eq_of_not_stops hf
  · cases c with
    | normal => simpa [signal] using hf
    | broke | continued => simp [Completion.Fits, inLoop, hl] at hc
    | returned v => simp [signal, raiseReturn, stops]
  · cases c with
    | normal => simpa [signal] using hf
    | broke => simp [signal, raiseBreak, stops, didBreak, hl]
    | continued => simp [signal, raiseContinue, stops, didContinue, hl]
    | returned v => simp [signal, raiseReturn, stops]

/-- Flags that signal a completion say so. -/
theorem signals_signal (hf : f.stops = false) (hc : c.Fits f.inLoop) :
    Signals f c (f.signal c) := by
  obtain ⟨hr, hl | hl⟩ := eq_of_not_stops hf
  · cases c with
    | normal => constructor <;> simp [signal, didBreak, didContinue, hr, hl]
    | broke | continued => simp [Completion.Fits, inLoop, hl] at hc
    | returned v =>
      constructor <;> simp [signal, raiseReturn, didBreak, didContinue, inLoop, hl]
  · cases c with
    | normal => constructor <;> simp [signal, didBreak, didContinue, hr, hl]
    | broke =>
      constructor <;> simp [signal, raiseBreak, didBreak, didContinue, inLoop, hr, hl]
    | continued =>
      constructor <;> simp [signal, raiseContinue, didBreak, didContinue, inLoop, hr, hl]
    | returned v =>
      constructor <;> simp [signal, raiseReturn, didBreak, didContinue, inLoop, hl]

/-- Without a loop around a break does nothing. -/
theorem raiseBreak_of_none (f : Flags) (hf : f.loop = none) : f.raiseBreak = f := by
  rw [raiseBreak, hf, Option.map_none, ← hf]

/-- Without a loop around a continue does nothing. -/
theorem raiseContinue_of_none (f : Flags) (hf : f.loop = none) : f.raiseContinue = f := by
  rw [raiseContinue, hf, Option.map_none, ← hf]

end Flags

/-- Flags that have one start signal one completion at most. -/
theorem Signals.unique {before after : Flags} {c c' : Completion} (h : Signals before c after)
    (h' : Signals before c' after) : c = c' := by
  cases c' with
  | broke => exact h.broke.mp (h'.broke.mpr rfl)
  | continued => exact h.continued.mp (h'.continued.mpr rfl)
  | returned v => exact (h.returned v).mp ((h'.returned v).mpr rfl)
  | normal =>
    cases c with
    | normal => rfl
    | broke => exact (h'.broke.mp (h.broke.mpr rfl)).symm
    | continued => exact (h'.continued.mp (h.continued.mpr rfl)).symm
    | returned v => exact ((h'.returned v).mp ((h.returned v).mpr rfl)).symm

namespace Flags

section Loops

variable {f : Flags} {c : Completion}

/-- A loop enters its body with no flag up. -/
theorem stops_enterLoop (hf : f.stops = false) : f.enterLoop.stops = false := by
  obtain ⟨hr, -⟩ := eq_of_not_stops hf
  simp [enterLoop, stops, didBreak, didContinue, hr]

/-- Before the next turn the flags are again those that the loop was entered with. -/
theorem nextTurn_signal (f : Flags) (hc : c = .normal ∨ c = .continued) :
    (f.enterLoop.signal c).nextTurn = f.enterLoop := by
  rcases hc with rfl | rfl <;> rfl

/-- A loop ends after a break or a return in its body. -/
theorem ends_signal (hf : f.stops = false) :
    ((f.enterLoop.signal c).didReturn || (f.enterLoop.signal c).didBreak) =
      decide (¬ (c = .normal ∨ c = .continued)) := by
  obtain ⟨hr, -⟩ := eq_of_not_stops hf
  cases c <;>
    simp [signal, enterLoop, raiseBreak, raiseContinue, raiseReturn, didBreak, hr]

/-- Leaving a loop gives back the flags it was entered with. -/
theorem leaveLoop_enterLoop (f : Flags) : f.enterLoop.leaveLoop f = f := rfl

/-- A break stays inside the loop it is for. -/
theorem leaveLoop_signal_broke (f : Flags) : (f.enterLoop.signal .broke).leaveLoop f = f := rfl

/-- A return goes through every loop. -/
theorem leaveLoop_signal_returned (f : Flags) (v : Value) :
    (f.enterLoop.signal (.returned v)).leaveLoop f = f.signal (.returned v) := rfl

end Loops

end Flags

end Scriptlet
