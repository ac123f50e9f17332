import Scriptlet.Error
import Scriptlet.Value.Heap

/-!
# Reading and writing by index

Arrays are indexed by integers from zero and never grow on writing. Dictionaries are indexed
by keys, and writing a new key adds an entry. A read or write that fails leaves the heap as
it was.
-/

namespace Scriptlet

/-- The position that an index value names in an array of `length` elements (specification §4.1). -/
def arrayPosition (length : Nat) (key : Value) : Except Cause Nat :=
  match key with
  | .int i =>
    if 0 ≤ i && i.toNatClampNeg < length then .ok i.toNatClampNeg
    else .error (.indexOutOfRange i length)
  | _ => .error (.arrayIndexType key.type)

/-- The key that an index value names in a dictionary (specification §4.1). -/
def dictKey (key : Value) : Except Cause Key :=
  match Key.ofValue? key with
  | some k => .ok k
  | none => .error (.keyType key.type)

namespace Heap

/-- The value at an index of a container (specification §4.1). -/
def read (h : Heap) (container key : Value) : Except Cause Value :=
  match container with
  | .array r => do
    let i ← arrayPosition (h.array r).size key
    .ok ((h.array r).getD i .none)
  | .dict r => do
    let k ← dictKey key
    match (h.dict r).find? k with
    | some v => .ok v
    | none => .error (.keyNotFound k (h.dict r).size)
  | _ => .error (.notIndexable container.type)

/-- The heap with a value written at an index of a container (specification §4.1). -/
def write (h : Heap) (container key value : Value) : Except Cause Heap :=
  match container with
  | .array r => do
    let i ← arrayPosition (h.array r).size key
    .ok (h.modifyArray r (·.setIfInBounds i value))
  | .dict r => do
    let k ← dictKey key
    .ok (h.modifyDict r (·.set k value))
  | _ => .error (.notIndexAssignable container.type)

end Heap
end Scriptlet
