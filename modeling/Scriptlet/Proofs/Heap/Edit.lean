import Mathlib.Logic.Relation
import Scriptlet.Evaluation.Builtins
import Scriptlet.Proofs.Heap.History

/-!
# How a heap evolves

A running script changes the heap by edits of a few kinds: it makes containers, writes by
index, removes an entry, appends to an array. Whatever else a host does comes down to the same
operations on single containers. So every heap that a session can reach has evolved from the
empty one, and what every such operation keeps holds of it.
-/

namespace Scriptlet.Heap

/-- One change that a running script can make. -/
inductive Edit (h : Heap) : Heap → Prop where
  | newArray (elements : Array Value) : h.Edit (h.newArray elements).2
  /-- A new dictionary with entries that were written one after the other. -/
  | newDict (pairs : List (Key × Value)) :
      h.Edit (h.newDict (pairs.foldl (fun d (k, v) ↦ d.set k v) {})).2
  | write {k : Heap} (container key v : Value) (written : h.write container key v = .ok k) :
      h.Edit k
  | remove {v : Value} {rest : Dictionary} (r : DictRef) (k : Key)
      (found : (h.dict r).remove? k = some (v, rest)) : h.Edit (h.modifyDict r fun _ ↦ rest)
  | push (r : ArrayRef) (v : Value) : h.Edit (h.modifyArray r (·.push v))

/-- One heap comes from another one by operations on single containers. -/
def Evolves : Heap → Heap → Prop := Relation.ReflTransGen fun h k ↦ ∃ op, k = (h.operate op).2

namespace Evolves

variable {h k l : Heap}

/-- Nothing done is an evolution. -/
theorem refl (h : Heap) : h.Evolves h := Relation.ReflTransGen.refl

/-- Evolutions can be joined. -/
theorem trans (hk : h.Evolves k) (hl : k.Evolves l) : h.Evolves l :=
  Relation.ReflTransGen.trans hk hl

/-- A single operation is an evolution. -/
theorem operate (h : Heap) (op : Operation) : h.Evolves (h.operate op).2 :=
  Relation.ReflTransGen.single ⟨op, rfl⟩

/-- A well-formed heap stays well formed. -/
theorem wf (hk : h.Evolves k) (hw : h.WF) : k.WF := by
  induction hk with
  | refl => exact hw
  | tail _ hop ih =>
    obtain ⟨op, rfl⟩ := hop
    exact ih.operate op

end Evolves

section Operations

private theorem modify_eq_modify_const {α : Type} (xs : Array α) (i : Nat) (f : α → α) (d : α) :
    xs.modify i f = xs.modify i fun _ ↦ f (xs.getD i d) := by
  apply Array.ext
  · rw [Array.size_modify, Array.size_modify]
  · intro j hj _
    rw [Array.size_modify] at hj
    rw [Array.getElem_modify, Array.getElem_modify]
    by_cases he : i = j
    · subst he
      simp [Array.getD, hj]
    · rw [if_neg he, if_neg he]

/-- Changing an array is giving it the elements that come of it. -/
theorem modifyArray_eq (h : Heap) (r : ArrayRef) (f : Array Value → Array Value) :
    h.modifyArray r f = h.modifyArray r fun _ ↦ f (h.array r) := by
  rw [modifyArray, modify_eq_modify_const _ _ f #[]]
  rfl

/-- Changing a dictionary is putting another one in its place. -/
theorem modifyDict_eq (h : Heap) (r : DictRef) (f : Dictionary → Dictionary) :
    h.modifyDict r f = h.modifyDict r fun _ ↦ f (h.dict r) := by
  rw [modifyDict, modify_eq_modify_const _ _ f {}]
  rfl

/-- A change of an array is an evolution. -/
theorem evolves_modifyArray (h : Heap) (r : ArrayRef) (f : Array Value → Array Value) :
    h.Evolves (h.modifyArray r f) := by
  rw [modifyArray_eq]
  exact Evolves.operate h (.setArray r (f (h.array r)))

/-- What an action makes of a dictionary may take its place. -/
theorem evolves_modifyDict_act (h : Heap) (r : DictRef) (a : Dictionary.Action) :
    h.Evolves (h.modifyDict r fun _ ↦ ((h.dict r).act a).2) :=
  Evolves.operate h (.onDict r a)

/-- Writing an entry is an evolution. -/
theorem evolves_modifyDict_set (h : Heap) (r : DictRef) (k : Key) (v : Value) :
    h.Evolves (h.modifyDict r (·.set k v)) := by
  rw [modifyDict_eq]
  exact evolves_modifyDict_act h r (.set k v)

/-- Taking an entry out, if the key is there, is an evolution. -/
theorem evolves_removed (h : Heap) (r : DictRef) (k : Key) :
    h.Evolves (h.modifyDict r fun _ ↦
      (((h.dict r).remove? k).getD (.none, h.dict r)).2) := by
  have ha := evolves_modifyDict_act h r (.remove k true)
  simp only [Dictionary.act] at ha
  cases hk : (h.dict r).remove? k with
  | none | some p =>
    rw [hk] at ha
    exact ha

/-- Changing a new dictionary is making one that is changed already. -/
theorem modifyDict_newDict (h : Heap) (d : Dictionary) (f : Dictionary → Dictionary) :
    (h.newDict d).2.modifyDict (h.newDict d).1 f = (h.newDict (f d)).2 := by
  simp only [newDict, modifyDict, mk.injEq, true_and]
  apply Array.ext
  · simp
  · intro i hi hj
    rw [Array.getElem_modify, Array.getElem_push, Array.getElem_push]
    rw [Array.size_push] at hj
    by_cases he : i < h.dicts.size
    · simp [he, Nat.ne_of_gt he]
    · have hlast : h.dicts.size = i := by omega
      simp [hlast]

/-- A new dictionary may have entries from the start. -/
theorem evolves_newDict (h : Heap) (pairs : List (Key × Value)) :
    h.Evolves (h.newDict (pairs.foldl (fun d (k, v) ↦ d.set k v) {})).2 := by
  have hfold (d : Dictionary) (hd : h.Evolves (h.newDict d).2) :
      h.Evolves (h.newDict (pairs.foldl (fun d (k, v) ↦ d.set k v) d)).2 := by
    induction pairs generalizing d with
    | nil => exact hd
    | cons p pairs ih =>
      apply ih
      apply hd.trans
      rw [← modifyDict_newDict h d (·.set p.1 p.2)]
      exact evolves_modifyDict_set _ _ _ _
  exact hfold {} (Evolves.operate h .newDict)

/-- Writing by index changes one element of an array, or an entry of a dictionary. -/
theorem write_cases {h k : Heap} {container key v : Value}
    (written : h.write container key v = .ok k) :
    (∃ r i, container = .array r ∧ k = h.modifyArray r (·.setIfInBounds i v)) ∨
      ∃ r key', container = .dict r ∧ k = h.modifyDict r (·.set key' v) := by
  cases container with
  | array r =>
    cases hi : arrayPosition (h.array r).size key with
    | error cause => simp [Heap.write, hi, bind, Except.bind] at written
    | ok i =>
      simp only [Heap.write, hi, bind, Except.bind, Except.ok.injEq] at written
      exact Or.inl ⟨r, i, rfl, written.symm⟩
  | dict r =>
    cases hk : dictKey key with
    | error cause => simp [Heap.write, hk, bind, Except.bind] at written
    | ok key' =>
      simp only [Heap.write, hk, bind, Except.bind, Except.ok.injEq] at written
      exact Or.inr ⟨r, key', rfl, written.symm⟩
  | _ => simp [Heap.write] at written

/-- Writing by index is an evolution. -/
theorem evolves_write (h k : Heap) (container key v : Value)
    (written : h.write container key v = .ok k) : h.Evolves k := by
  rcases write_cases written with ⟨r, i, -, rfl⟩ | ⟨r, key', -, rfl⟩
  · exact evolves_modifyArray h r _
  · exact evolves_modifyDict_set h r key' v

/-- Every edit is an evolution. -/
theorem Edit.evolves {h k : Heap} (he : h.Edit k) : h.Evolves k := by
  cases he with
  | newArray elements => exact Evolves.operate h (.newArray elements)
  | newDict pairs => exact evolves_newDict h pairs
  | write container key v written => exact evolves_write h k container key v written
  | remove r key found =>
    have hr := evolves_removed h r key
    rwa [found] at hr
  | push r v => exact evolves_modifyArray h r _

end Operations
end Scriptlet.Heap

namespace Scriptlet.Builtin

variable [Host]

/-- What a function of the language does to the heap a script can do. -/
theorem Native.edit {b : Builtin} {arguments : List Value}
    {respond : Heap → Except Cause Response} (hb : b.Native arguments respond) {h : Heap}
    {r : Response} (hr : respond h = .ok r) : r.heap = h ∨ h.Edit r.heap := by
  cases hb with
  | print =>
    cases hr
    exact .inl rfl
  | len =>
    unfold respondLen at hr
    split at hr <;> cases hr <;> exact .inl rfl
  | abs =>
    unfold respondAbs at hr
    split at hr
    · obtain ⟨v, -, hv⟩ := Except.exists_of_bind_eq_ok hr
      cases hv
      exact .inl rfl
    · cases hr
    · cases hr
  | contains =>
    unfold respondContains at hr
    split at hr
    · obtain ⟨k, -, hk⟩ := Except.exists_of_bind_eq_ok hr
      cases hk
      exact .inl rfl
    · cases hr
    · cases hr
  | remove =>
    unfold respondRemove at hr
    split at hr
    · obtain ⟨k, -, hk⟩ := Except.exists_of_bind_eq_ok hr
      split at hk
      · next found =>
        cases hk
        exact .inr (.remove _ k found)
      · cases hk
    · cases hr
    · cases hr
  | push =>
    unfold respondPush at hr
    split at hr
    · cases hr
      exact .inr (.push _ _)
    · cases hr
    · cases hr
  | keys =>
    unfold respondKeys at hr
    split at hr
    · cases hr
      exact .inr (.newArray _)
    · cases hr
    · cases hr
  | type =>
    unfold respondType at hr
    split at hr <;> cases hr <;> exact .inl rfl

end Scriptlet.Builtin
