import Scriptlet.Value.Heap

/-!
# Releasing values

A container is used as long as some handle to it is left. Releasing a list of values gives
their handles up one at a time; a container whose last handle goes is emptied on the spot,
and the values it held join the list. Containers that are still in use keep what they hold.
-/

namespace Scriptlet

/-- How many handles name each container. -/
structure Census where
  arrays : Array Nat
  dicts : Array Nat

namespace Census

/-- The number of handles to a container. -/
def count (c : Census) : Container → Nat
  | .array r => c.arrays.getD r.index 0
  | .dict r => c.dicts.getD r.index 0

/-- One handle more. -/
def gain (c : Census) : Container → Census
  | .array r => { c with arrays := c.arrays.modify r.index (· + 1) }
  | .dict r => { c with dicts := c.dicts.modify r.index (· + 1) }

/-- One handle less. -/
def lose (c : Census) : Container → Census
  | .array r => { c with arrays := c.arrays.modify r.index (· - 1) }
  | .dict r => { c with dicts := c.dicts.modify r.index (· - 1) }

/-- Counts the value if it is a handle. -/
def note (c : Census) (v : Value) : Census :=
  match v.container? with
  | some container => c.gain container
  | none => c

/-- The handles among the values of a list, for the containers of a heap. -/
def ofValues (h : Heap) (vs : List Value) : Census :=
  vs.foldl note ⟨Array.replicate h.arrays.size 0, Array.replicate h.dicts.size 0⟩

end Census

namespace Heap

/-- Every value that some container holds. -/
def stored (h : Heap) : List Value :=
  h.arrays.toList.flatMap (·.toList) ++ h.dicts.toList.flatMap (·.values)

/-- The heap with one container emptied. -/
def emptied (h : Heap) : Container → Heap
  | .array r => h.modifyArray r fun _ ↦ #[]
  | .dict r => h.modifyDict r (·.clear)

end Heap

/-- A release under way: the values still to give up, the next one first. -/
structure Release where
  heap : Heap
  census : Census
  pending : List Value

namespace Release

/-- Gives up the next value; its container is emptied if this was the last handle to it. -/
def step (s : Release) : Release :=
  match s.pending with
  | [] => s
  | v :: rest =>
    match v.container? with
    | none => { s with pending := rest }
    | some c =>
      if s.census.count c = 1 then
        let freed := (s.heap.held c).reverse
        { heap := s.heap.emptied c
          census := s.census.lose c
          pending := freed ++ rest }
      else { s with census := s.census.lose c, pending := rest }

/-- Some number of steps. -/
def steps : Nat → Release → Release
  | 0, s => s
  | n + 1, s => steps n s.step

/-- The start of a release: `roots` are the handles held outside the heap and the list. -/
def start (h : Heap) (roots pending : List Value) : Release where
  heap := h
  census := Census.ofValues h (roots ++ pending ++ h.stored)
  pending := pending.reverse

/-- Steps enough for a release: each gives up a value that is pending or stored at the start. -/
def duration (s : Release) : Nat := s.pending.length + s.heap.stored.length

/-- The whole release (specification §5). -/
def run (s : Release) : Release := steps s.duration s

/-- With nothing pending a step changes nothing. -/
theorem step_of_pending_eq_nil (s : Release) (hs : s.pending = []) : s.step = s := by
  simp [step, hs]

end Release
end Scriptlet
