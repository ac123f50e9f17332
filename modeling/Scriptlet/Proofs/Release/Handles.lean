import Mathlib.Tactic.ByContra
import Scriptlet.Value.Release

/-!
# Counting handles

A heap stores its values container by container, and emptying one of them takes out just the values
that it held. The census of some values has a number for each container of the heap: that of the
handles to it among these values.
-/

namespace Scriptlet

/-- Containers with the same handle are the same. -/
theorem Container.handle_inj {c d : Container} : c.handle = d.handle ↔ c = d := by
  constructor
  · intro h
    have hc := congrArg Value.container? h
    rw [container?_handle, container?_handle] at hc
    exact Option.some.inj hc
  · exact congrArg Container.handle

private theorem perm_flatMap_modify {α β : Type} {f : α → List β} {g : α → α} {d : α}
    (hd : f d = []) (hg : ∀ a, f (g a) = []) (l : List α) (i : Nat) :
    (f (l.getD i d) ++ (l.modify i g).flatMap f).Perm (l.flatMap f) := by
  induction l generalizing i with
  | nil => simp [hd]
  | cons a l ih =>
    cases i with
    | zero => simp [hg]
    | succ i =>
      rw [List.getD_cons_succ, List.modify_succ_cons, List.flatMap_cons, List.flatMap_cons]
      exact (List.perm_append_comm_assoc _ _ _).trans ((ih i).append_left (f a))

namespace Heap

variable {h : Heap} {c : Container} {v : Value}

/-- Emptying a container takes out of the heap what the container held, and nothing else. -/
theorem perm_held_append_stored_emptied (h : Heap) (c : Container) :
    (h.held c ++ (h.emptied c).stored).Perm h.stored := by
  cases c with
  | array r =>
    have hget : h.array r = h.arrays.toList.getD r.index #[] := by
      simp [array, List.getD_eq_getElem?_getD, Array.getD_eq_getD_getElem?]
    rw [held, hget, stored, stored, emptied, modifyArray, Array.toList_modify, ← List.append_assoc]
    exact (perm_flatMap_modify (f := Array.toList) rfl (fun _ ↦ rfl) _ _).append_right _
  | dict r =>
    have hget : h.dict r = h.dicts.toList.getD r.index {} := by
      simp [dict, List.getD_eq_getElem?_getD, Array.getD_eq_getD_getElem?]
    rw [held, hget, stored, stored, emptied, modifyDict, Array.toList_modify]
    apply (List.perm_append_comm_assoc _ _ _).trans
    exact (perm_flatMap_modify (f := Dictionary.values) rfl (fun _ ↦ rfl) _ _).append_left _

/-- What a container holds is stored in the heap. -/
theorem mem_stored_of_mem_held (hv : v ∈ h.held c) : v ∈ h.stored :=
  (h.perm_held_append_stored_emptied c).subset (List.mem_append_left _ hv)

/-- What is stored in the heap is held by one of its containers. -/
theorem exists_mem_held_of_mem_stored (hv : v ∈ h.stored) : ∃ c, h.Has c ∧ v ∈ h.held c := by
  rcases List.mem_append.mp hv with hv | hv
  · obtain ⟨elements, hmem, hv⟩ := List.mem_flatMap.mp hv
    obtain ⟨i, hi, rfl⟩ := List.getElem_of_mem hmem
    rw [Array.length_toList] at hi
    refine ⟨.array ⟨i⟩, hi, ?_⟩
    simpa [held, array, Array.getD, hi] using hv
  · obtain ⟨d, hmem, hv⟩ := List.mem_flatMap.mp hv
    obtain ⟨i, hi, rfl⟩ := List.getElem_of_mem hmem
    rw [Array.length_toList] at hi
    refine ⟨.dict ⟨i⟩, hi, ?_⟩
    simpa [held, dict, Array.getD, hi] using hv

/-- Emptying a container makes and loses none. -/
theorem has_emptied_iff {d : Container} : (h.emptied c).Has d ↔ h.Has d := by
  cases c <;> cases d <;> simp [Has, emptied, modifyArray, modifyDict]

end Heap

namespace Census

/-- The census has a number for a container. -/
def Has (s : Census) : Container → Prop
  | .array r => r.index < s.arrays.size
  | .dict r => r.index < s.dicts.size

/-- The census with another number for one container. -/
def adjust (s : Census) (f : Nat → Nat) : Container → Census
  | .array r => { s with arrays := s.arrays.modify r.index f }
  | .dict r => { s with dicts := s.dicts.modify r.index f }

variable {s : Census} {c d : Container}

private theorem getD_modify (a : Array Nat) (f : Nat → Nat) (i j : Nat) :
    (a.modify i f).getD j 0 = if i = j ∧ j < a.size then f (a.getD j 0) else a.getD j 0 := by
  simp only [Array.getD_eq_getD_getElem?, Array.getElem?_modify]
  by_cases hij : i = j
  · subst hij
    by_cases hi : i < a.size <;> simp [hi]
  · simp [hij]

private theorem has_adjust_iff (f : Nat → Nat) : (s.adjust f c).Has d ↔ s.Has d := by
  cases c <;> cases d <;> simp [Has, adjust]

private theorem count_adjust_self (f : Nat → Nat) (hc : s.Has c) :
    (s.adjust f c).count c = f (s.count c) := by
  cases c with
  | array r => exact (getD_modify _ _ _ _).trans (if_pos ⟨rfl, hc⟩)
  | dict r => exact (getD_modify _ _ _ _).trans (if_pos ⟨rfl, hc⟩)

private theorem count_adjust_of_not (f : Nat → Nat) (hn : ¬ (c = d ∧ s.Has d)) :
    (s.adjust f c).count d = s.count d := by
  cases c with
  | array r =>
    cases d with
    | array t =>
      apply (getD_modify _ _ _ _).trans (if_neg _)
      rintro ⟨hi, hlt⟩
      exact hn ⟨congrArg (fun i ↦ Container.array ⟨i⟩) hi, hlt⟩
    | dict t => rfl
  | dict r =>
    cases d with
    | array t => rfl
    | dict t =>
      apply (getD_modify _ _ _ _).trans (if_neg _)
      rintro ⟨hi, hlt⟩
      exact hn ⟨congrArg (fun i ↦ Container.dict ⟨i⟩) hi, hlt⟩

/-- Only a container of the census has a number other than zero. -/
theorem has_of_count_ne_zero (hc : s.count c ≠ 0) : s.Has c := by
  cases c with
  | array r =>
    by_contra hn
    exact hc (dif_neg hn)
  | dict r =>
    by_contra hn
    exact hc (dif_neg hn)

private theorem gain_eq (s : Census) (c : Container) : s.gain c = s.adjust (· + 1) c := by
  cases c <;> rfl

private theorem lose_eq (s : Census) (c : Container) : s.lose c = s.adjust (· - 1) c := by
  cases c <;> rfl

/-- Losing a handle lowers one number and no other. -/
theorem count_lose (s : Census) (c d : Container) :
    (s.lose c).count d = s.count d - if c = d then 1 else 0 := by
  rw [lose_eq]
  by_cases hd : c = d
  · subst hd
    rw [if_pos rfl]
    by_cases hc : s.Has c
    · exact count_adjust_self _ hc
    · have hzero : s.count c = 0 := by
        by_contra hn
        exact hc (has_of_count_ne_zero hn)
      rw [count_adjust_of_not _ fun h ↦ hc h.2, hzero]
  · rw [if_neg hd, count_adjust_of_not _ fun h ↦ hd h.1, Nat.sub_zero]

/-- Losing a handle leaves every container in the census. -/
theorem has_lose_iff : (s.lose c).Has d ↔ s.Has d := by
  rw [lose_eq]
  exact has_adjust_iff _

private theorem has_note_iff (v : Value) : (s.note v).Has c ↔ s.Has c := by
  rw [note]
  split
  · rw [gain_eq]
    exact has_adjust_iff _
  · rfl

private theorem count_note (hc : s.Has c) (v : Value) :
    (s.note v).count c = s.count c + if v = c.handle then 1 else 0 := by
  rw [note]
  cases hv : v.container? with
  | none =>
    have hne : v ≠ c.handle := by
      rintro rfl
      rw [Container.container?_handle] at hv
      cases hv
    rw [if_neg hne]
    rfl
  | some d =>
    obtain rfl := (v.container?_eq_some_iff d).mp hv
    change (s.gain d).count c = s.count c + if d.handle = c.handle then 1 else 0
    rw [gain_eq]
    by_cases hd : d = c
    · subst hd
      rw [if_pos rfl, count_adjust_self _ hc]
    · rw [if_neg (mt Container.handle_inj.mp hd), count_adjust_of_not _ fun h ↦ hd h.1,
        Nat.add_zero]

private theorem has_foldl_note_iff (vs : List Value) : (vs.foldl note s).Has c ↔ s.Has c := by
  induction vs generalizing s with
  | nil => rfl
  | cons v vs ih => exact ih.trans (has_note_iff v)

private theorem count_foldl_note (hc : s.Has c) (vs : List Value) :
    (vs.foldl note s).count c = s.count c + vs.count c.handle := by
  induction vs generalizing s with
  | nil => rfl
  | cons v vs ih =>
    rw [List.foldl_cons, ih ((has_note_iff v).mpr hc), count_note hc, List.count_cons]
    simp only [beq_iff_eq]
    omega

/-- The census has exactly the containers of the heap. -/
theorem has_ofValues_iff (h : Heap) (vs : List Value) : (ofValues h vs).Has c ↔ h.Has c := by
  rw [ofValues, has_foldl_note_iff]
  cases c <;> simp [Has, Heap.Has]

/-- The census counts the handles to each container of the heap. -/
theorem count_ofValues {h : Heap} (hc : h.Has c) (vs : List Value) :
    (ofValues h vs).count c = vs.count c.handle := by
  have hhas := (has_ofValues_iff h []).mpr hc
  have hzero : (ofValues h []).count c = 0 := by
    cases c <;> simp [ofValues, count, Array.getD]
  exact (count_foldl_note hhas vs).trans (by rw [hzero, Nat.zero_add])

end Census
end Scriptlet
