import Scriptlet.Proofs.Locality.Growth
import Scriptlet.Proofs.Release.Handles

/-!
# The steps of a release

Each step of a release takes one handle away, that of the value given up, so a release comes to an
end. The census keeps count of the handles that are left in the roots, in the list and inside
containers, so a container is emptied exactly when its last handle goes.
-/

namespace Scriptlet

namespace Heap

variable {h k l : Heap} {c d : Container}

/-- A container of one heap has been emptied in another one: an array has no elements left, a
dictionary neither slots nor keys, which counts as one change of its key set. -/
def Spent (h k : Heap) : Container → Prop
  | .array r => k.array r = #[]
  | .dict r => k.dict r = (h.dict r).clear

/-- A spent container is spent as long as it is unchanged. -/
theorem Spent.trans (hk : h.Spent k c) (hl : k.Unchanged l c) : h.Spent l c := by
  cases c <;> exact Eq.trans hl hk

/-- A spent container holds nothing. -/
theorem Spent.held_eq (hk : h.Spent k c) : k.held c = [] := by
  cases c with
  | array r => exact congrArg Array.toList hk
  | dict r => exact congrArg Dictionary.values hk

private theorem unchanged_emptied (h : Heap) (hne : d ≠ c) : h.Unchanged (h.emptied c) d := by
  cases c with
  | array r => exact h.unchanged_modifyArray _ hne
  | dict r => exact h.unchanged_modifyDict _ hne

/-- Emptying an unchanged container leaves it spent. -/
theorem Unchanged.spent_emptied (hk : h.Unchanged k c) (hc : k.Has c) :
    h.Spent (k.emptied c) c := by
  cases c with
  | array r => exact array_modifyArray_self k r _ hc
  | dict r => exact (dict_modifyDict_self k r _ hc).trans (congrArg Dictionary.clear hk)

end Heap

namespace Release

variable {s t : Release} {v : Value} {rest roots : List Value} {c : Container}

section Turns

/-- What giving up one value can come to. -/
inductive Turn (s : Release) (v : Value) (rest : List Value) : Release → Prop where
  /-- The value is no handle. -/
  | scalar (hv : v.container? = none) : Turn s v rest { s with pending := rest }
  /-- There are other handles to its container. -/
  | shared {c : Container} (hv : v = c.handle) (more : s.census.count c ≠ 1) :
      Turn s v rest { s with census := s.census.lose c, pending := rest }
  /-- There are none, and the container is emptied. -/
  | last {c : Container} (hv : v = c.handle) (only : s.census.count c = 1) :
      Turn s v rest ⟨s.heap.emptied c, s.census.lose c, (s.heap.held c).reverse ++ rest⟩

/-- A step with something pending is such a turn. -/
theorem turn_step (hp : s.pending = v :: rest) : s.Turn v rest s.step := by
  simp only [step, hp]
  cases hv : v.container? with
  | none => exact .scalar hv
  | some c =>
    have hc := (v.container?_eq_some_iff c).mp hv
    dsimp only
    split
    · next only => exact .last hc only
    · next more => exact .shared hc more

/-- All values there are: in the roots, in the list and inside containers. -/
def values (s : Release) (roots : List Value) : List Value :=
  roots ++ s.pending ++ s.heap.stored

private theorem Turn.perm_values (ht : s.Turn v rest t) (hp : s.pending = v :: rest)
    (roots : List Value) : (s.values roots).Perm (v :: t.values roots) := by
  have hpop : (s.values roots).Perm (v :: (roots ++ rest ++ s.heap.stored)) := by
    rw [values, hp]
    exact List.perm_middle.append_right _
  apply hpop.trans
  cases ht with
  | scalar hv => exact .refl _
  | shared hv more => exact .refl _
  | @last c hv only =>
    apply List.Perm.cons
    rw [values, List.append_assoc, List.append_assoc, List.append_assoc]
    apply List.Perm.append_left
    apply ((s.heap.perm_held_append_stored_emptied c).symm.append_left rest).trans
    apply (List.perm_append_comm_assoc _ _ _).trans
    exact (List.reverse_perm _).symm.append_right _

/-- A turn neither makes nor loses a container. -/
theorem Turn.has_heap_iff (ht : s.Turn v rest t) : t.heap.Has c ↔ s.heap.Has c := by
  cases ht with
  | scalar hv => rfl
  | shared hv more => rfl
  | last hv only => exact Heap.has_emptied_iff

private theorem Turn.has_census_iff (ht : s.Turn v rest t) : t.census.Has c ↔ s.census.Has c := by
  cases ht with
  | scalar hv => rfl
  | shared hv more => exact Census.has_lose_iff
  | last hv only => exact Census.has_lose_iff

private theorem Turn.count_census (ht : s.Turn v rest t) (c : Container) :
    t.census.count c = s.census.count c - if v = c.handle then 1 else 0 := by
  cases ht with
  | scalar hv =>
    have hne : v ≠ c.handle := by
      rintro rfl
      rw [Container.container?_handle] at hv
      cases hv
    rw [if_neg hne, Nat.sub_zero]
  | shared hv more =>
    rw [hv, Census.count_lose]
    simp only [Container.handle_inj]
  | last hv only =>
    rw [hv, Census.count_lose]
    simp only [Container.handle_inj]

end Turns

section Ending

private theorem steps_of_pending_eq_nil (n : Nat) (hp : s.pending = []) : s.steps n = s := by
  induction n with
  | zero => rfl
  | succ n ih =>
    rw [steps, step_of_pending_eq_nil s hp]
    exact ih

/-- A step with something pending brings the end nearer by one. -/
theorem duration_step (hp : s.pending ≠ []) : s.step.duration + 1 = s.duration := by
  obtain ⟨v, rest, hp⟩ := List.exists_cons_of_ne_nil hp
  have hlen := ((turn_step hp).perm_values hp []).length_eq
  simp only [values, List.nil_append, List.length_append, List.length_cons] at hlen
  rw [duration, duration]
  omega

/-- After as many steps as there are values in the list and inside containers, nothing is
pending. -/
theorem pending_steps (n : Nat) (hn : s.duration ≤ n) : (s.steps n).pending = [] := by
  induction n generalizing s with
  | zero =>
    have hlen : s.pending.length = 0 := by
      rw [duration] at hn
      omega
    exact List.length_eq_zero_iff.mp hlen
  | succ n ih =>
    by_cases hp : s.pending = []
    · rw [steps_of_pending_eq_nil (n + 1) hp]
      exact hp
    · apply ih
      have hstep := duration_step hp
      omega

/-- One more step is a step after the others. -/
theorem steps_succ (s : Release) (n : Nat) : s.steps (n + 1) = (s.steps n).step := by
  induction n generalizing s with
  | zero => rfl
  | succ n ih => exact ih s.step

/-- What every step keeps is kept by any number of steps. -/
theorem steps_induction {P : Release → Prop} (hstep : ∀ s, P s → P s.step) (n : Nat)
    (hs : P s) : P (s.steps n) := by
  induction n generalizing s with
  | zero => exact hs
  | succ n ih => exact ih (hstep s hs)

end Ending

section Accounting

/-- The census has the containers of the heap, and counts the handles to each that are left. -/
structure Accounted (s : Release) (roots : List Value) : Prop where
  has : ∀ c, s.census.Has c ↔ s.heap.Has c
  count : ∀ c, s.heap.Has c → s.census.count c = (s.values roots).count c.handle

/-- The value to give up next is the only handle to a container that is left. -/
structure GivesLast (s : Release) (roots : List Value) (c : Container) : Prop where
  next : s.pending.head? = some c.handle
  only : (s.values roots).count c.handle = 1

/-- A release starts with a right census. -/
theorem accounted_start (h : Heap) (roots pending : List Value) :
    (start h roots pending).Accounted roots where
  has c := Census.has_ofValues_iff h _
  count c hc := by
    apply (Census.count_ofValues hc _).trans
    simp only [values, start, List.count_append, List.count_reverse]

/-- The census stays right. -/
theorem Accounted.step (hs : s.Accounted roots) : s.step.Accounted roots := by
  cases hp : s.pending with
  | nil =>
    rw [step_of_pending_eq_nil s hp]
    exact hs
  | cons v rest =>
    have ht := turn_step hp
    constructor
    · intro c
      rw [ht.has_census_iff, ht.has_heap_iff]
      exact hs.has c
    · intro c hc
      have hperm := (ht.perm_values hp roots).count_eq c.handle
      simp only [List.count_cons, beq_iff_eq] at hperm
      rw [ht.count_census, hs.count c (ht.has_heap_iff.mp hc), hperm, Nat.add_sub_cancel]

/-- A last handle is nowhere but in front of the list. -/
theorem GivesLast.notMem (hl : s.GivesLast roots c) :
    c.handle ∉ roots ∧ c.handle ∉ s.pending.tail ∧ c.handle ∉ s.heap.stored := by
  have honly := hl.only
  rw [values, List.eq_cons_of_mem_head? hl.next, List.count_append, List.count_append,
    List.count_cons_self] at honly
  refine ⟨?_, ?_, ?_⟩
  · apply List.count_eq_zero.mp
    omega
  · apply List.count_eq_zero.mp
    omega
  · apply List.count_eq_zero.mp
    omega

/-- A last handle is there. -/
theorem GivesLast.mem_values (hl : s.GivesLast roots c) : c.handle ∈ s.values roots := by
  have honly := hl.only
  apply List.count_pos_iff.mp
  omega

/-- A handle that is gone after a step was the last one. -/
theorem givesLast_of_notMem_step (hc : c.handle ∈ s.values roots)
    (hgone : c.handle ∉ s.step.values roots) : s.GivesLast roots c := by
  cases hp : s.pending with
  | nil =>
    rw [step_of_pending_eq_nil s hp] at hgone
    exact absurd hc hgone
  | cons v rest =>
    have hperm := (turn_step hp).perm_values hp roots
    obtain rfl : c.handle = v := by
      rcases List.mem_cons.mp (hperm.subset hc) with hv | hleft
      · exact hv
      · exact absurd hleft hgone
    constructor
    · rw [hp]
      rfl
    · rw [hperm.count_eq, List.count_cons_self, List.count_eq_zero.mpr hgone]

/-- A last handle is gone after the step. -/
theorem GivesLast.notMem_step (hl : s.GivesLast roots c) : c.handle ∉ s.step.values roots := by
  have hp := List.eq_cons_of_mem_head? hl.next
  have hperm := ((turn_step hp).perm_values hp roots).count_eq c.handle
  rw [hl.only, List.count_cons_self] at hperm
  apply List.count_eq_zero.mp
  omega

/-- A step takes a handle away, it makes none. -/
theorem mem_values_of_mem_step (hv : v ∈ s.step.values roots) : v ∈ s.values roots := by
  cases hp : s.pending with
  | nil =>
    rw [step_of_pending_eq_nil s hp] at hv
    exact hv
  | cons w rest =>
    exact ((turn_step hp).perm_values hp roots).symm.subset (List.mem_cons_of_mem w hv)

/-- A container is emptied when its last handle goes. -/
theorem Accounted.heap_step_of_givesLast (hs : s.Accounted roots) (hc : s.heap.Has c)
    (hl : s.GivesLast roots c) : s.step.heap = s.heap.emptied c := by
  have hp := List.eq_cons_of_mem_head? hl.next
  have hcount : s.census.count c = 1 := (hs.count c hc).trans hl.only
  have ht := turn_step hp
  generalize s.step = t at ht
  cases ht with
  | scalar hv =>
    rw [Container.container?_handle] at hv
    cases hv
  | shared hv more =>
    obtain rfl := Container.handle_inj.mp hv
    exact absurd hcount more
  | last hv only =>
    obtain rfl := Container.handle_inj.mp hv
    rfl

/-- No container is emptied at any other moment. -/
theorem Accounted.heap_step (hs : s.Accounted roots) :
    s.step.heap = s.heap ∨ ∃ c, s.GivesLast roots c ∧ s.step.heap = s.heap.emptied c := by
  cases hp : s.pending with
  | nil => exact Or.inl (congrArg heap (step_of_pending_eq_nil s hp))
  | cons v rest =>
    have ht := turn_step hp
    generalize s.step = t at ht
    cases ht with
    | scalar hv => exact Or.inl rfl
    | shared hv more => exact Or.inl rfl
    | @last c hv only =>
      have hhas : s.census.Has c := by
        apply Census.has_of_count_ne_zero
        omega
      refine Or.inr ⟨c, ⟨?_, ?_⟩, rfl⟩
      · rw [hp, hv]
        rfl
      · rw [← hs.count c ((hs.has c).mp hhas), only]

/-- Any other container is as it was. -/
theorem Accounted.unchanged_step (hs : s.Accounted roots) (hn : ¬ s.GivesLast roots c) :
    s.heap.Unchanged s.step.heap c := by
  rcases hs.heap_step with heq | ⟨d, hl, heq⟩
  · rw [heq]
    exact .refl _ c
  · rw [heq]
    apply s.heap.unchanged_emptied
    rintro rfl
    exact hn hl

end Accounting

end Release
end Scriptlet
