import Scriptlet.Value.Dictionary

/-!
# The heap

All containers live in one heap and are named by address. Addresses are given out in order
and never given out twice, so a container that is new has no handle anywhere else.
-/

namespace Scriptlet

/-- The contents of every container (specification §3). -/
structure Heap where
  arrays : Array (Array Value) := #[]
  dicts : Array Dictionary := #[]
  deriving Inhabited

namespace Heap

/-- The elements of an array; an address that was never given out names an empty one. -/
def array (h : Heap) (r : ArrayRef) : Array Value := h.arrays.getD r.index #[]

/-- The dictionary at an address; one that was never given out names an empty one. -/
def dict (h : Heap) (r : DictRef) : Dictionary := h.dicts.getD r.index {}

/-- A new array with the given elements. -/
def newArray (h : Heap) (elements : Array Value) : ArrayRef × Heap :=
  (⟨h.arrays.size⟩, { h with arrays := h.arrays.push elements })

/-- A new dictionary with the given contents. -/
def newDict (h : Heap) (d : Dictionary) : DictRef × Heap :=
  (⟨h.dicts.size⟩, { h with dicts := h.dicts.push d })

/-- Changes the elements of one array. -/
def modifyArray (h : Heap) (r : ArrayRef) (f : Array Value → Array Value) : Heap :=
  { h with arrays := h.arrays.modify r.index f }

/-- Changes one dictionary. -/
def modifyDict (h : Heap) (r : DictRef) (f : Dictionary → Dictionary) : Heap :=
  { h with dicts := h.dicts.modify r.index f }

/-- The values that a container holds. -/
def held (h : Heap) : Container → List Value
  | .array r => (h.array r).toList
  | .dict r => (h.dict r).values

/-- Whether the address of a container has been given out. -/
def Has (h : Heap) : Container → Prop
  | .array r => r.index < h.arrays.size
  | .dict r => r.index < h.dicts.size

/-- A new array holds the elements it was made with. -/
theorem array_newArray (h : Heap) (elements : Array Value) :
    (h.newArray elements).2.array (h.newArray elements).1 = elements := by
  simp [newArray, array, Array.getD]

/-- A new dictionary has the contents it was made with. -/
theorem dict_newDict (h : Heap) (d : Dictionary) :
    (h.newDict d).2.dict (h.newDict d).1 = d := by
  simp [newDict, dict, Array.getD]

/-- Changing an array changes that array as asked. -/
theorem array_modifyArray_self (h : Heap) (r : ArrayRef) (f : Array Value → Array Value)
    (hr : h.Has (.array r)) : (h.modifyArray r f).array r = f (h.array r) := by
  simp only [Has] at hr
  simp [modifyArray, array, Array.getD, Array.getElem_modify, hr]

/-- Changing an array leaves the other arrays alone. -/
theorem array_modifyArray_of_ne (h : Heap) (r s : ArrayRef) (f : Array Value → Array Value)
    (hs : s ≠ r) : (h.modifyArray r f).array s = h.array s := by
  have hi : r.index ≠ s.index := fun he ↦ hs (by cases r; cases s; simp_all)
  simp [modifyArray, array, Array.getD, Array.getElem_modify, hi]

/-- Changing a dictionary changes that dictionary as asked. -/
theorem dict_modifyDict_self (h : Heap) (r : DictRef) (f : Dictionary → Dictionary)
    (hr : h.Has (.dict r)) : (h.modifyDict r f).dict r = f (h.dict r) := by
  simp only [Has] at hr
  simp [modifyDict, dict, Array.getD, Array.getElem_modify, hr]

/-- Changing a dictionary leaves the other dictionaries alone. -/
theorem dict_modifyDict_of_ne (h : Heap) (r s : DictRef) (f : Dictionary → Dictionary)
    (hs : s ≠ r) : (h.modifyDict r f).dict s = h.dict s := by
  have hi : r.index ≠ s.index := fun he ↦ hs (by cases r; cases s; simp_all)
  simp [modifyDict, dict, Array.getD, Array.getElem_modify, hi]

end Heap
end Scriptlet
