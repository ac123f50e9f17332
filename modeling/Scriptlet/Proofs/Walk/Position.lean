import Scriptlet.Proofs.Dictionary.History
import Scriptlet.Value.Walk

/-!
# Positions in a slot list

A walk over a dictionary remembers a position among all slots, dead ones included. The number
of live slots before that position tells how many entries the walk has visited. It depends on
the shape of the dictionary only, so it means the same as long as the version does.
-/

namespace Scriptlet

namespace Dictionary

/-- The number of live slots before a position. -/
def liveBefore (d : Dictionary) (p : Nat) : Nat := ((d.shape.take p).filter (·.2)).length

/-- No live slot comes before the first position. -/
@[simp]
theorem liveBefore_zero (d : Dictionary) : d.liveBefore 0 = 0 := rfl

private theorem liveBefore_succ_of_dead (d : Dictionary) (p : Nat) (s : Slot)
    (hp : d.slots[p]? = some s) (hs : s.live = false) : d.liveBefore (p + 1) = d.liveBefore p := by
  have hx : d.shape[p]? = some (s.key, false) := by rw [getElem?_shape, hp, ← hs]; rfl
  simp [liveBefore, List.take_add_one, hx]

/-- Passing a live slot passes one entry. -/
theorem liveBefore_succ_of_live (d : Dictionary) (p : Nat) (s : Slot)
    (hp : d.slots[p]? = some s) (hs : s.live = true) :
    d.liveBefore (p + 1) = d.liveBefore p + 1 := by
  have hx : d.shape[p]? = some (s.key, true) := by rw [getElem?_shape, hp, ← hs]; rfl
  simp [liveBefore, List.take_add_one, hx]

private theorem liveBefore_of_size_le (d : Dictionary) (p : Nat) (hp : d.slots.size ≤ p) :
    d.liveBefore p = d.keys.length := by
  have hl : d.shape.length ≤ p := by simpa [shape] using hp
  rw [liveBefore, List.take_of_length_le hl, keys_eq_shape, List.length_map]

private theorem getElem?_filter_of_live (l : List (Key × Bool)) (p : Nat) (k : Key)
    (hp : l[p]? = some (k, true)) :
    (l.filter (·.2))[((l.take p).filter (·.2)).length]? = some (k, true) := by
  induction l generalizing p with
  | nil => simp at hp
  | cons x l ih =>
    cases p with
    | zero =>
      have hx : x = (k, true) := by simpa using hp
      simp [hx]
    | succ p =>
      have ht := ih p (by simpa using hp)
      cases hx : x.2 <;> simp [hx, ht]

/-- The key of a live slot stands as far along the keys as there are live slots before it. -/
theorem getElem?_keys_of_live (d : Dictionary) (p : Nat) (s : Slot)
    (hp : d.slots[p]? = some s) (hs : s.live = true) :
    d.keys[d.liveBefore p]? = some s.key := by
  have hx : d.shape[p]? = some (s.key, true) := by rw [getElem?_shape, hp, ← hs]; rfl
  rw [keys_eq_shape, List.getElem?_map, liveBefore, getElem?_filter_of_live _ p _ hx]
  rfl

/-- A live slot of a coherent dictionary holds the value of its key. -/
theorem Coherent.find?_of_live {d : Dictionary} (h : d.Coherent) (p : Nat) (s : Slot)
    (hp : d.slots[p]? = some s) (hs : s.live = true) : d.find? s.key = some s.value := by
  rw [h.find?_eq_some_iff, entries_eq, Slot.mem_entries_iff, ← hs]
  exact List.mem_iff_getElem?.mpr ⟨p, by simpa using hp⟩

end Dictionary

namespace Cursor

/-- The search for a live slot stops at one, having passed dead slots only. -/
theorem nextLive_eq_some (d : Dictionary) (p q : Nat) (s : Slot)
    (h : nextLive d.slots p = some (q, s)) :
    d.slots[q]? = some s ∧ s.live = true ∧ d.liveBefore q = d.liveBefore p := by
  fun_induction nextLive d.slots p with
  | case1 p hp hl =>
    simp only [Option.some.injEq, Prod.mk.injEq] at h
    obtain ⟨rfl, rfl⟩ := h
    exact ⟨Array.getElem?_eq_getElem hp, hl, rfl⟩
  | case2 p hp hl ih =>
    obtain ⟨hq, hs, hb⟩ := ih h
    have hd := d.liveBefore_succ_of_dead p _ (Array.getElem?_eq_getElem hp) (by simpa using hl)
    exact ⟨hq, hs, hb.trans hd⟩
  | case3 p hp => exact absurd h (by simp)

/-- The search for a live slot fails where every entry has been passed. -/
theorem nextLive_eq_none (d : Dictionary) (p : Nat) (h : nextLive d.slots p = none) :
    d.liveBefore p = d.keys.length := by
  fun_induction nextLive d.slots p with
  | case1 p hp hl => exact absurd h (by simp)
  | case2 p hp hl ih =>
    have hd := d.liveBefore_succ_of_dead p _ (Array.getElem?_eq_getElem hp) (by simpa using hl)
    exact hd.symm.trans (ih h)
  | case3 p hp => exact d.liveBefore_of_size_le p (Nat.le_of_not_lt hp)

end Cursor
end Scriptlet
