import Scriptlet.Value.Basic

/-!
# Control flags

A statement that leaves its list early says so by flags: one for the return of its function,
with the value returned, and two for the nearest loop of the same function. Outside every
loop of its function a statement has no loop flags to set. A list stops at the first
statement after which a flag is up; a loop hands its body flags of its own.
-/

namespace Scriptlet

/-- What the statements of a loop's body ask of the loop. -/
structure LoopControl where
  didBreak : Bool := false
  didContinue : Bool := false
  deriving DecidableEq

/-- The flags that statements set for the lists, loops and calls around them. -/
structure Flags where
  /-- What the function returns, once it returns. -/
  returnValue : Value := .none
  didReturn : Bool := false
  /-- The control of the nearest loop of the function, if there is one. -/
  loop : Option LoopControl := none
  deriving DecidableEq

instance : Inhabited Flags where default := {}

namespace Flags

/-- Whether the nearest loop is asked to end. -/
def didBreak (f : Flags) : Bool := f.loop.any (·.didBreak)

/-- Whether the nearest loop is asked to go on with its next turn. -/
def didContinue (f : Flags) : Bool := f.loop.any (·.didContinue)

/-- Whether the rest of a list of statements is skipped. -/
def stops (f : Flags) : Bool := f.didReturn || f.didBreak || f.didContinue

/-- The flags after a return. -/
def raiseReturn (f : Flags) (v : Value) : Flags := { f with returnValue := v, didReturn := true }

/-- The flags after a break; without a loop nothing changes. -/
def raiseBreak (f : Flags) : Flags :=
  { f with loop := f.loop.map fun l ↦ { l with didBreak := true } }

/-- The flags after a continue; without a loop nothing changes. -/
def raiseContinue (f : Flags) : Flags :=
  { f with loop := f.loop.map fun l ↦ { l with didContinue := true } }

/-- The flags that a loop hands to its body: a control of its own, with nothing asked yet. -/
def enterLoop (f : Flags) : Flags := { f with loop := some {} }

/-- The flags before the next turn of a loop. -/
def nextTurn (f : Flags) : Flags :=
  { f with loop := f.loop.map fun l ↦ { l with didContinue := false } }

/-- The flags after a loop that was entered with the flags `outer`. -/
def leaveLoop (f outer : Flags) : Flags := { f with loop := outer.loop }

end Flags
end Scriptlet
