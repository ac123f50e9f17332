import Scriptlet.Proofs.Dictionary.Version
import Scriptlet.Proofs.Heap.Edit
import Scriptlet.Proofs.Walk.Course

/-!
# Changes of what a container is made of

A script changes which positions an array has by appending, and which keys a dictionary has by
writing a new one or removing one. Each such change raises the stamp of the container, which is
what a walk looks at; every other edit leaves the stamp alone. So an array never gets shorter,
and a stamp that has risen never comes back.
-/

namespace Scriptlet.Heap

/-- A change of what a container is made of, from one heap to another: an element is appended to
the array, a new key is written to the dictionary, or a key is removed from it. -/
inductive Alters (h : Heap) : Container → Heap → Prop where
  | push {r : ArrayRef} (has : h.Has (.array r)) (v : Value) :
      h.Alters (.array r) (h.modifyArray r (·.push v))
  | insert {r : DictRef} {k : Key} (has : h.Has (.dict r))
      (isNew : (h.dict r).contains k = false) (v : Value) :
      h.Alters (.dict r) (h.modifyDict r (·.set k v))
  | remove {r : DictRef} {k : Key} {v : Value} {rest : Dictionary} (has : h.Has (.dict r))
      (found : (h.dict r).remove? k = some (v, rest)) :
      h.Alters (.dict r) (h.modifyDict r fun _ ↦ rest)

variable {h k : Heap} {c : Container}

/-- Such a change raises the stamp of the container. -/
theorem Alters.stamp_lt (hk : h.Alters c k) : h.stamp c < k.stamp c := by
  cases hk with
  | @push r has v =>
    rw [stamp, stamp, array_modifyArray_self h r _ has, Array.size_push]
    exact Nat.lt_succ_self _
  | @insert r key has isNew v =>
    rw [stamp, stamp, dict_modifyDict_self h r _ has, Dictionary.version_set_of_new isNew]
    exact Nat.lt_succ_self _
  | @remove r key v rest has found =>
    rw [stamp, stamp, dict_modifyDict_self h r _ has, Dictionary.version_of_remove? found]
    exact Nat.lt_succ_self _

/-- Changing an array keeps every container. -/
theorem Has.modifyArray (hc : h.Has c) (r : ArrayRef) (f : Array Value → Array Value) :
    (h.modifyArray r f).Has c := by
  cases c with
  | array s =>
    simp only [Has, Heap.modifyArray, Array.size_modify]
    exact hc
  | dict s => exact hc

/-- Changing a dictionary keeps every container. -/
theorem Has.modifyDict (hc : h.Has c) (r : DictRef) (f : Dictionary → Dictionary) :
    (h.modifyDict r f).Has c := by
  cases c with
  | array s => exact hc
  | dict s =>
    simp only [Has, Heap.modifyDict, Array.size_modify]
    exact hc

/-- Making an array keeps every container. -/
theorem Has.newArray (hc : h.Has c) (elements : Array Value) : (h.newArray elements).2.Has c := by
  cases c with
  | array s =>
    simp only [Has, Heap.newArray, Array.size_push]
    exact Nat.lt_succ_of_lt hc
  | dict s => exact hc

/-- Making a dictionary keeps every container. -/
theorem Has.newDict (hc : h.Has c) (d : Dictionary) : (h.newDict d).2.Has c := by
  cases c with
  | array s => exact hc
  | dict s =>
    simp only [Has, Heap.newDict, Array.size_push]
    exact Nat.lt_succ_of_lt hc

/-- A new array is none of the old ones. -/
theorem array_newArray_of_has (elements : Array Value) {s : ArrayRef} (hs : h.Has (.array s)) :
    (h.newArray elements).2.array s = h.array s := by
  have hi : s.index ≠ h.arrays.size := Nat.ne_of_lt hs
  simp only [Heap.newArray, array, Array.getD_eq_getD_getElem?, Array.getElem?_push, if_neg hi]

/-- A new dictionary is none of the old ones. -/
theorem dict_newDict_of_has (d : Dictionary) {s : DictRef} (hs : h.Has (.dict s)) :
    (h.newDict d).2.dict s = h.dict s := by
  apply dict_newDict_of_ne
  rintro rfl
  exact Nat.lt_irrefl _ hs

private theorem stamp_modifyArray (r : ArrayRef) (f : Array Value → Array Value) :
    (h.modifyArray r f).stamp c = h.stamp c ∨
      c = .array r ∧ h.Has c ∧ (h.modifyArray r f).stamp c = (f (h.array r)).size := by
  cases c with
  | dict s => exact Or.inl rfl
  | array s =>
    by_cases hs : s = r
    · subst hs
      by_cases has : h.Has (.array s)
      · exact Or.inr ⟨rfl, has, by rw [stamp, array_modifyArray_self h s f has]⟩
      · left
        have hi : ¬ s.index < h.arrays.size := has
        simp [stamp, Heap.modifyArray, array, Array.getD, hi]
    · left
      rw [stamp, stamp, array_modifyArray_of_ne h r s f hs]

private theorem stamp_modifyDict (r : DictRef) (f : Dictionary → Dictionary) :
    (h.modifyDict r f).stamp c = h.stamp c ∨
      c = .dict r ∧ h.Has c ∧ (h.modifyDict r f).stamp c = (f (h.dict r)).version := by
  cases c with
  | array s => exact Or.inl rfl
  | dict s =>
    rcases dict_modifyDict h r s f with he | ⟨rfl, has, he⟩
    · exact Or.inl (congrArg Dictionary.version he)
    · exact Or.inr ⟨rfl, has, congrArg Dictionary.version he⟩

/-- Every edit keeps all containers. -/
theorem Edit.has (he : h.Edit k) (hc : h.Has c) : k.Has c := by
  cases he with
  | newArray elements => exact hc.newArray elements
  | newDict pairs => exact hc.newDict _
  | write container key v written =>
    rcases write_cases written with ⟨r, i, -, rfl⟩ | ⟨r, key', -, rfl⟩
    · exact hc.modifyArray r _
    · exact hc.modifyDict r _
  | remove r key found => exact hc.modifyDict r _
  | push r v => exact hc.modifyArray r _

/-- An edit that does not change what a container is made of leaves its stamp alone. -/
theorem Edit.stamp_eq_or_alters (he : h.Edit k) (hc : h.Has c) :
    k.stamp c = h.stamp c ∨ h.Alters c k := by
  cases he with
  | newArray elements =>
    left
    cases c with
    | array s => exact congrArg Array.size (array_newArray_of_has elements hc)
    | dict s => rfl
  | newDict pairs =>
    left
    cases c with
    | array s => rfl
    | dict s => exact congrArg Dictionary.version (dict_newDict_of_has _ hc)
  | write container key v written =>
    rcases write_cases written with ⟨r, i, -, rfl⟩ | ⟨r, key', -, rfl⟩
    · left
      rcases stamp_modifyArray (h := h) (c := c) r (·.setIfInBounds i v) with hs | ⟨rfl, -, hs⟩
      · exact hs
      · rw [hs, Array.size_setIfInBounds]
        rfl
    · rcases stamp_modifyDict (h := h) (c := c) r (·.set key' v) with hs | ⟨rfl, has, hs⟩
      · exact Or.inl hs
      · cases hk : (h.dict r).contains key' with
        | true => exact Or.inl (hs.trans (Dictionary.version_set_of_contains hk v))
        | false => exact Or.inr (.insert has hk v)
  | remove r key found =>
    rcases stamp_modifyDict (h := h) (c := c) r (fun _ ↦ _) with hs | ⟨rfl, has, -⟩
    · exact Or.inl hs
    · exact Or.inr (.remove has found)
  | push r v =>
    rcases stamp_modifyArray (h := h) (c := c) r (·.push v) with hs | ⟨rfl, has, -⟩
    · exact Or.inl hs
    · exact Or.inr (.push has v)

end Scriptlet.Heap
