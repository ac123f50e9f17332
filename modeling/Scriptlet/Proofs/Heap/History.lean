import Scriptlet.Proofs.Dictionary.History
import Scriptlet.Value.Heap

/-!
# What happens to a heap

A heap changes by operations on single containers: new ones are made, an array is given other
elements, an action is carried out on a dictionary, a dictionary is copied slot by slot.
Every dictionary of a heap that started empty is well formed, and whatever happens to a heap
happens to each of its dictionaries as a history of actions.
-/

namespace Scriptlet.Heap

/-- An operation on the containers of a heap. -/
inductive Operation where
  | newArray (elements : Array Value)
  /-- Gives an array other elements, whichever and however many. -/
  | setArray (r : ArrayRef) (elements : Array Value)
  | newDict
  | onDict (r : DictRef) (a : Dictionary.Action)
  /-- Makes a new dictionary with the slots of another one. -/
  | copyDict (r : DictRef)

/-- Carries out an operation; only actions on dictionaries have something to answer. -/
def operate (h : Heap) : Operation → Dictionary.Response × Heap
  | .newArray elements => (.done, (h.newArray elements).2)
  | .setArray r elements => (.done, h.modifyArray r fun _ ↦ elements)
  | .newDict => (.done, (h.newDict {}).2)
  | .onDict r a => (((h.dict r).act a).1, h.modifyDict r fun _ ↦ ((h.dict r).act a).2)
  | .copyDict r => (.done, (h.newDict (h.dict r)).2)

/-- Carries out operations one after the other. -/
def operateAll (h : Heap) : List Operation → List Dictionary.Response × Heap
  | [] => ([], h)
  | op :: ops =>
    let (response, h) := h.operate op
    let (responses, h) := h.operateAll ops
    (response :: responses, h)

/-- Every dictionary is well formed. -/
def WF (h : Heap) : Prop := ∀ r, (h.dict r).WF

/-- The dictionaries of a longer heap. -/
theorem dict_newDict_of_ne (h : Heap) (d : Dictionary) (r : DictRef)
    (hr : r ≠ (h.newDict d).1) : (h.newDict d).2.dict r = h.dict r := by
  have hi : r.index ≠ h.dicts.size := fun he ↦ hr (by cases r; cases he; rfl)
  simp only [newDict, dict, Array.getD_eq_getD_getElem?, Array.getElem?_push, if_neg hi]

private theorem dict_modifyDict_of_not_has (h : Heap) (r : DictRef) (f : Dictionary → Dictionary)
    (hr : ¬ h.Has (.dict r)) : (h.modifyDict r f).dict r = {} := by
  have hi : h.dicts.size ≤ r.index := Nat.le_of_not_lt hr
  simp [modifyDict, dict, Array.getD_eq_getD_getElem?, hi]

/-- Every change of a dictionary happens through its own address. -/
theorem dict_modifyDict (h : Heap) (r s : DictRef) (f : Dictionary → Dictionary) :
    (h.modifyDict r f).dict s = h.dict s ∨
      s = r ∧ h.Has (.dict r) ∧ (h.modifyDict r f).dict s = f (h.dict r) := by
  by_cases hs : s = r
  · subst hs
    by_cases hr : h.Has (.dict s)
    · exact Or.inr ⟨rfl, hr, dict_modifyDict_self h s f hr⟩
    · left
      rw [dict_modifyDict_of_not_has h s f hr]
      have hi : h.dicts.size ≤ s.index := Nat.le_of_not_lt hr
      simp [dict, Array.getD_eq_getD_getElem?, hi]
  · exact Or.inl (dict_modifyDict_of_ne h r s f hs)

/-- The empty heap is well formed. -/
theorem wf_empty : ({} : Heap).WF := fun _ ↦ Dictionary.wf_empty

/-- A new well-formed dictionary keeps a heap well formed. -/
theorem WF.newDict {h : Heap} (hw : h.WF) (d : Dictionary) (hd : d.WF) :
    (h.newDict d).2.WF := by
  intro r
  by_cases hr : r = (h.newDict d).1
  · rw [hr, dict_newDict]
    exact hd
  · rw [dict_newDict_of_ne h d r hr]
    exact hw r

/-- Every operation keeps a heap well formed. -/
theorem WF.operate {h : Heap} (hw : h.WF) (op : Operation) : (h.operate op).2.WF := by
  cases op with
  | newArray elements => exact hw
  | setArray r elements => exact hw
  | newDict => exact hw.newDict _ Dictionary.wf_empty
  | onDict r a =>
    intro s
    rcases dict_modifyDict h r s (fun _ ↦ ((h.dict r).act a).2) with hs | ⟨-, -, hs⟩
    · exact hs ▸ hw s
    · exact hs ▸ (hw r).act a
  | copyDict r => exact hw.newDict _ (hw r)

/-- What a heap has been through has happened to each of its dictionaries. -/
structure Later (h k : Heap) : Prop where
  has : ∀ r, h.Has (.dict r) → k.Has (.dict r)
  dict : ∀ r, h.Has (.dict r) → (h.dict r).Later (k.dict r)

/-- A heap is later than itself. -/
theorem Later.refl (h : Heap) : h.Later h := ⟨fun _ hr ↦ hr, fun _ _ ↦ Dictionary.Later.refl _⟩

/-- What is later than a later heap is later than the heap. -/
theorem Later.trans {h k l : Heap} (hk : h.Later k) (hl : k.Later l) : h.Later l where
  has r hr := hl.has r (hk.has r hr)
  dict r hr := (hk.dict r hr).trans (hl.dict r (hk.has r hr))

private theorem later_newDict (h : Heap) (d : Dictionary) : h.Later (h.newDict d).2 where
  has r hr := by
    change r.index < (h.dicts.push d).size
    rw [Array.size_push]
    exact Nat.lt_succ_of_lt hr
  dict r hr := by
    have hn : r ≠ (h.newDict d).1 := by
      rintro rfl
      exact Nat.lt_irrefl _ hr
    rw [dict_newDict_of_ne h d r hn]
    exact Dictionary.Later.refl _

/-- Every operation makes history. -/
theorem later_operate (h : Heap) (op : Operation) : h.Later (h.operate op).2 := by
  cases op with
  | newArray elements => exact ⟨fun _ hr ↦ hr, fun _ _ ↦ Dictionary.Later.refl _⟩
  | setArray r elements => exact ⟨fun _ hr ↦ hr, fun _ _ ↦ Dictionary.Later.refl _⟩
  | newDict => exact later_newDict h _
  | onDict r a =>
    constructor
    · intro s hs
      change s.index < (h.dicts.modify r.index _).size
      rw [Array.size_modify]
      exact hs
    · intro s _
      rcases dict_modifyDict h r s (fun _ ↦ ((h.dict r).act a).2) with he | ⟨hr, -, he⟩
      · exact he ▸ Dictionary.Later.refl _
      · rw [hr]
        rw [hr] at he
        exact he ▸ Dictionary.later_act _ a
  | copyDict r => exact later_newDict h _

end Scriptlet.Heap
