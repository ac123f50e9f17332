import Scriptlet.Value.Dictionary

/-!
# Coherent dictionaries

The index, the counter and the slots of a dictionary tell the same story: the index sends a
key to the one live slot that holds it, the counter is the number of live slots, and a dead
slot holds nothing. Removing a key may leave more dead slots than live ones for a moment, so
the bound on dead slots is kept apart from coherence. Both hold of the empty dictionary and
survive every operation.
-/

namespace Scriptlet

/-- The entries that a list of slots holds, oldest first. -/
def Slot.entries (l : List Slot) : List (Key × Value) :=
  (l.filter (·.live)).map fun s ↦ (s.key, s.value)

/-- No two live slots share a key. -/
def Slot.Distinct (l : List Slot) : Prop :=
  l.Pairwise fun a b ↦ a.live = true → b.live = true → a.key ≠ b.key

namespace Slot

/-- An entry is what some live slot holds. -/
theorem mem_entries_iff (l : List Slot) (k : Key) (v : Value) :
    (k, v) ∈ entries l ↔ (⟨k, v, true⟩ : Slot) ∈ l := by
  constructor
  · intro h
    obtain ⟨⟨key, value, live⟩, hs, he⟩ := List.mem_map.mp h
    obtain ⟨hm, hl⟩ := List.mem_filter.mp hs
    cases he
    change live = true at hl
    rwa [hl] at hm
  · intro h
    exact List.mem_map.mpr ⟨⟨k, v, true⟩, List.mem_filter.mpr ⟨h, rfl⟩, rfl⟩

private theorem nodup_entries (l : List Slot) (hd : Distinct l) :
    ((entries l).map (·.1)).Nodup := by
  rw [entries, List.map_map]
  apply List.pairwise_map.mpr
  apply List.Pairwise.imp_of_mem _ (List.Pairwise.filter _ hd)
  intro a b ha hb hab
  exact hab (List.mem_filter.mp ha).2 (List.mem_filter.mp hb).2

private theorem entries_cons (s : Slot) (l : List Slot) :
    entries (s :: l) = if s.live then (s.key, s.value) :: entries l else entries l := by
  cases h : s.live <;> simp [entries, h]

private theorem ne_of_mem_entries (s : Slot) (l : List Slot) (hd : Distinct (s :: l))
    (hs : s.live = true) (p : Key × Value) (hp : p ∈ entries l) : p.1 ≠ s.key := by
  have hm := (mem_entries_iff l p.1 p.2).mp hp
  exact ((List.pairwise_cons.mp hd).1 _ hm hs rfl).symm

private theorem entries_overwrite (l : List Slot) (i : Nat) (k : Key) (v w : Value)
    (hd : Distinct l) (hi : l[i]? = some ⟨k, w, true⟩) :
    entries (l.modify i fun s ↦ { s with value := v }) =
      (entries l).map fun p ↦ if p.1 = k then (k, v) else p := by
  induction l generalizing i with
  | nil => simp at hi
  | cons s l ih =>
    cases i with
    | zero =>
      have hs : s = ⟨k, w, true⟩ := by simpa using hi
      subst hs
      have ht : (entries l).map (fun p ↦ if p.1 = k then (k, v) else p) = entries l := by
        apply (List.map_congr_left ?_).trans (List.map_id _)
        intro p hp
        exact if_neg (ne_of_mem_entries _ l hd rfl p hp)
      change (k, v) :: entries l = ((k, w) :: entries l).map fun p ↦ if p.1 = k then (k, v) else p
      rw [List.map_cons, if_pos rfl, ht]
    | succ i =>
      have hi' : l[i]? = some ⟨k, w, true⟩ := by simpa using hi
      have ht := ih i (List.pairwise_cons.mp hd).2 hi'
      rw [List.modify_succ_cons, entries_cons, entries_cons, ht]
      split
      · next hs =>
        have hk := (List.pairwise_cons.mp hd).1 _ (List.mem_of_getElem? hi') hs rfl
        simp [hk]
      · rfl

private theorem entries_kill (l : List Slot) (i : Nat) (k : Key) (w : Value) (hd : Distinct l)
    (hi : l[i]? = some ⟨k, w, true⟩) :
    entries (l.modify i fun s ↦ { s with value := .none, live := false }) =
      (entries l).filter fun p ↦ p.1 ≠ k := by
  induction l generalizing i with
  | nil => simp at hi
  | cons s l ih =>
    cases i with
    | zero =>
      have hs : s = ⟨k, w, true⟩ := by simpa using hi
      subst hs
      have ht : (entries l).filter (fun p ↦ p.1 ≠ k) = entries l := by
        apply List.filter_eq_self.mpr
        intro p hp
        simpa using ne_of_mem_entries _ l hd rfl p hp
      change entries l = ((k, w) :: entries l).filter fun p ↦ p.1 ≠ k
      rw [List.filter_cons_of_neg (by simp), ht]
    | succ i =>
      have hi' : l[i]? = some ⟨k, w, true⟩ := by simpa using hi
      have ht := ih i (List.pairwise_cons.mp hd).2 hi'
      rw [List.modify_succ_cons, entries_cons, entries_cons, ht]
      split
      · next hs =>
        have hk := (List.pairwise_cons.mp hd).1 _ (List.mem_of_getElem? hi') hs rfl
        simp [hk]
      · rfl

private theorem length_entries_kill (l : List Slot) (i : Nat) (k : Key) (w : Value)
    (hi : l[i]? = some ⟨k, w, true⟩) :
    (entries (l.modify i fun s ↦ { s with value := .none, live := false })).length + 1 =
      (entries l).length := by
  induction l generalizing i with
  | nil => simp at hi
  | cons s l ih =>
    cases i with
    | zero =>
      have hs : s = ⟨k, w, true⟩ := by simpa using hi
      subst hs
      rfl
    | succ i =>
      have ht := ih i (by simpa using hi)
      rw [List.modify_succ_cons, entries_cons, entries_cons]
      split
      · rw [List.length_cons, List.length_cons, ht]
      · exact ht

end Slot

namespace Dictionary

/-- Index, counter and slots agree. -/
structure Coherent (d : Dictionary) : Prop where
  index_iff : ∀ (k : Key) (i : Nat), d.index[k]? = some i ↔ ∃ v, d.slots[i]? = some ⟨k, v, true⟩
  size_eq : d.size = d.entries.length
  dead_none : ∀ s ∈ d.slots, s.live = false → s.value = .none

/-- A coherent dictionary with no more dead slots than live ones. -/
structure WF (d : Dictionary) : Prop extends Coherent d where
  tombstones_le : d.tombstones ≤ d.size

/-- The entries are those of the slot list. -/
theorem entries_eq (d : Dictionary) : d.entries = Slot.entries d.slots.toList := rfl

namespace Coherent

variable {d : Dictionary}

/-- In a coherent dictionary no two live slots share a key. -/
theorem distinct (h : d.Coherent) : Slot.Distinct d.slots.toList := by
  apply List.pairwise_iff_getElem.mpr
  intro i j hi hj hij hli hlj hk
  have ha : d.slots[i]? = some ⟨d.slots.toList[i].key, d.slots.toList[i].value, true⟩ := by
    rw [← hli]
    simp at hi
    simp [hi]
  have hb : d.slots[j]? = some ⟨d.slots.toList[i].key, d.slots.toList[j].value, true⟩ := by
    rw [hk, ← hlj]
    simp at hj
    simp [hj]
  have hia := (h.index_iff _ i).mpr ⟨_, ha⟩
  have hib := (h.index_iff _ j).mpr ⟨_, hb⟩
  rw [hia] at hib
  exact Nat.ne_of_lt hij (Option.some.inj hib)

/-- The keys of a coherent dictionary are distinct. -/
theorem nodup_keys (h : d.Coherent) : d.keys.Nodup := Slot.nodup_entries _ h.distinct

/-- Looking a key up finds its entry. -/
theorem find?_eq_some_iff (h : d.Coherent) (k : Key) (v : Value) :
    d.find? k = some v ↔ (k, v) ∈ d.entries := by
  rw [entries_eq, Slot.mem_entries_iff, List.mem_iff_getElem?]
  constructor
  · intro hf
    obtain ⟨i, hi, hv⟩ := Option.bind_eq_some_iff.mp hf
    obtain ⟨w, hw⟩ := (h.index_iff k i).mp hi
    rw [hw] at hv
    cases hv
    exact ⟨i, by simpa using hw⟩
  · rintro ⟨i, hi⟩
    have hs : d.slots[i]? = some ⟨k, v, true⟩ := by simpa using hi
    have hx := (h.index_iff k i).mpr ⟨v, hs⟩
    rw [find?, hx, Option.bind_some, hs]
    rfl

/-- A key is in the index exactly when it has an entry. -/
theorem contains_iff (h : d.Coherent) (k : Key) : d.contains k = true ↔ k ∈ d.keys := by
  have hc : d.contains k = true ↔ ∃ i, d.index[k]? = some i := by
    rw [contains, Std.TreeMap.contains_eq_isSome_getElem?, Option.isSome_iff_exists]
  rw [hc, keys, List.mem_map]
  constructor
  · rintro ⟨i, hi⟩
    obtain ⟨v, hv⟩ := (h.index_iff k i).mp hi
    refine ⟨(k, v), ?_, rfl⟩
    rw [entries_eq, Slot.mem_entries_iff, List.mem_iff_getElem?]
    exact ⟨i, by simpa using hv⟩
  · rintro ⟨⟨k', v⟩, hm, rfl⟩
    rw [entries_eq, Slot.mem_entries_iff, List.mem_iff_getElem?] at hm
    obtain ⟨i, hi⟩ := hm
    exact ⟨i, (h.index_iff _ i).mpr ⟨v, by simpa using hi⟩⟩

/-- A slot that the index names is live and holds the key. -/
theorem slot_of_index (h : d.Coherent) (k : Key) (i : Nat) (hi : d.index[k]? = some i) :
    ∃ v, d.slots[i]? = some ⟨k, v, true⟩ ∧ d.find? k = some v := by
  obtain ⟨v, hv⟩ := (h.index_iff k i).mp hi
  refine ⟨v, hv, ?_⟩
  rw [find?, hi, Option.bind_some, hv]
  rfl

end Coherent

private theorem getElem?_of_toList (d : Dictionary) (i : Nat) (s : Slot)
    (h : d.slots[i]? = some s) : d.slots.toList[i]? = some s := by
  simpa using h

/-- Writing over a live slot writes over the value of its key. -/
theorem entries_overwriteAt (d : Dictionary) (h : d.Coherent) (i : Nat) (k : Key) (v w : Value)
    (hi : d.slots[i]? = some ⟨k, w, true⟩) :
    (d.overwriteAt i v).entries = d.entries.map fun p ↦ if p.1 = k then (k, v) else p := by
  rw [entries_eq, entries_eq, overwriteAt, Array.toList_modify]
  exact Slot.entries_overwrite _ i k v w h.distinct (getElem?_of_toList d i _ hi)

/-- Killing a live slot removes its key. -/
theorem entries_kill (d : Dictionary) (h : d.Coherent) (i : Nat) (k : Key) (w : Value)
    (hi : d.slots[i]? = some ⟨k, w, true⟩) :
    (d.kill k i).entries = d.entries.filter fun p ↦ p.1 ≠ k := by
  rw [entries_eq, entries_eq, kill, Array.toList_modify]
  exact Slot.entries_kill _ i k w h.distinct (getElem?_of_toList d i _ hi)

/-- The empty dictionary is coherent. -/
theorem coherent_empty : ({} : Dictionary).Coherent where
  index_iff := by simp
  size_eq := rfl
  dead_none := by simp

/-- Overwriting keeps a dictionary coherent. -/
theorem coherent_overwriteAt (d : Dictionary) (h : d.Coherent) (i : Nat) (k : Key) (v w : Value)
    (hi : d.slots[i]? = some ⟨k, w, true⟩) : (d.overwriteAt i v).Coherent where
  index_iff a j := by
    rw [overwriteAt, h.index_iff a j, Array.getElem?_modify]
    by_cases hij : i = j
    · subst hij
      simp [hi]
    · simp [hij]
  size_eq := by
    rw [entries_overwriteAt d h i k v w hi, List.length_map]
    exact h.size_eq
  dead_none s hs hl := by
    obtain ⟨j, hj⟩ := Array.mem_iff_getElem?.mp hs
    rw [overwriteAt, Array.getElem?_modify] at hj
    by_cases hij : i = j
    · subst hij
      rw [if_pos rfl, hi] at hj
      cases hj
      cases hl
    · rw [if_neg hij] at hj
      exact h.dead_none s (Array.mem_of_getElem? hj) hl

/-- Appending a new key keeps a dictionary coherent. -/
theorem coherent_append (d : Dictionary) (h : d.Coherent) (k : Key) (v : Value)
    (hk : d.index[k]? = none) : (d.append k v).Coherent where
  index_iff a j := by
    rw [append, Std.TreeMap.getElem?_insert, Array.getElem?_push]
    by_cases ha : k = a
    · subst ha
      have hn (w : Value) : d.slots[j]? ≠ some ⟨k, w, true⟩ := by
        intro hw
        have hx := (h.index_iff k j).mpr ⟨w, hw⟩
        rw [hk] at hx
        cases hx
      by_cases hj : j = d.slots.size <;> simp [hj, hn, eq_comm]
    · by_cases hj : j = d.slots.size
      · subst hj
        simp [ha, h.index_iff]
      · simp [ha, hj, h.index_iff]
  size_eq := by
    rw [entries_append, List.length_append, ← h.size_eq]
    rfl
  dead_none s hs hl := by
    rcases Array.mem_push.mp hs with hm | rfl
    · exact h.dead_none s hm hl
    · cases hl

/-- Killing a live slot keeps a dictionary coherent. -/
theorem coherent_kill (d : Dictionary) (h : d.Coherent) (i : Nat) (k : Key) (w : Value)
    (hi : d.slots[i]? = some ⟨k, w, true⟩) : (d.kill k i).Coherent where
  index_iff a j := by
    rw [kill, Std.TreeMap.getElem?_erase, Array.getElem?_modify]
    have hx := (h.index_iff k i).mpr ⟨w, hi⟩
    by_cases ha : k = a
    · subst ha
      by_cases hij : i = j
      · subst hij
        simp [hi]
      · have hn (v : Value) : d.slots[j]? ≠ some ⟨k, v, true⟩ := by
          intro hv
          have hy := (h.index_iff k j).mpr ⟨v, hv⟩
          rw [hx] at hy
          exact hij (Option.some.inj hy)
        simp [hij, hn]
    · by_cases hij : i = j
      · subst hij
        simp [ha, hi, h.index_iff]
      · simp [ha, hij, h.index_iff]
  size_eq := by
    have hl := Slot.length_entries_kill _ i k w (getElem?_of_toList d i _ hi)
    rw [entries_eq, kill, Array.toList_modify]
    rw [← entries_eq, ← h.size_eq] at hl
    dsimp only
    omega
  dead_none s hs hl := by
    obtain ⟨j, hj⟩ := Array.mem_iff_getElem?.mp hs
    rw [kill, Array.getElem?_modify] at hj
    by_cases hij : i = j
    · subst hij
      rw [if_pos rfl, hi] at hj
      cases hj
      rfl
    · rw [if_neg hij] at hj
      exact h.dead_none s (Array.mem_of_getElem? hj) hl

private theorem getElem?_reindex_iff (index : Std.TreeMap Key Nat) (l : List Slot) (n : Nat)
    (hl : (l.map (·.key)).Nodup) (k : Key) (i : Nat) :
    ((l.zipIdx n).foldl (fun index (s, i) ↦ index.insert s.key i) index)[k]? = some i ↔
      (∃ j s, l[j]? = some s ∧ s.key = k ∧ i = n + j) ∨
        (∀ s ∈ l, s.key ≠ k) ∧ index[k]? = some i := by
  induction l generalizing index n with
  | nil => simp
  | cons s l ih =>
    have hn := List.nodup_cons.mp hl
    rw [List.zipIdx_cons, List.foldl_cons, ih _ _ hn.2, Std.TreeMap.getElem?_insert]
    constructor
    · rintro (⟨j, t, hj, ht, rfl⟩ | ⟨ha, hx⟩)
      · exact Or.inl ⟨j + 1, t, by simpa using hj, ht, by omega⟩
      · by_cases hs : s.key = k
        · rw [if_pos (by simp [hs])] at hx
          exact Or.inl ⟨0, s, rfl, hs, (Option.some.inj hx).symm⟩
        · rw [if_neg (by simpa using hs)] at hx
          refine Or.inr ⟨?_, hx⟩
          intro t ht
          rcases List.mem_cons.mp ht with rfl | ht
          · exact hs
          · exact ha t ht
    · rintro (⟨j, t, hj, ht, rfl⟩ | ⟨ha, hx⟩)
      · cases j with
        | zero =>
          have hs : s = t := by simpa using hj
          subst hs
          refine Or.inr ⟨?_, by simp [ht]⟩
          intro u hu he
          exact hn.1 (List.mem_map.mpr ⟨u, hu, he.trans ht.symm⟩)
        | succ j => exact Or.inl ⟨j, t, by simpa using hj, ht, by omega⟩
      · have hs := ha s List.mem_cons_self
        refine Or.inr ⟨fun t ht ↦ ha t (List.mem_cons_of_mem _ ht), ?_⟩
        rw [if_neg (by simpa using hs)]
        exact hx

/-- Squeezing out dead slots keeps a dictionary coherent. -/
theorem coherent_compact (d : Dictionary) (h : d.Coherent) : d.compact.Coherent where
  index_iff k i := by
    have hn : ((d.slots.filter (·.live)).toList.map (·.key)).Nodup := by
      have hk := h.nodup_keys
      rw [keys, entries, List.map_map] at hk
      simpa [Function.comp_def] using hk
    have hlive (s : Slot) : s ∈ (d.slots.filter (·.live)).toList ↔ s ∈ d.slots ∧ s.live = true := by
      simp
    rw [compact, reindex, getElem?_reindex_iff _ _ _ hn]
    constructor
    · rintro (⟨j, s, hj, rfl, rfl⟩ | ⟨ha, hx⟩)
      · have hl := ((hlive s).mp (List.mem_of_getElem? hj)).2
        refine ⟨s.value, ?_⟩
        rw [← hl, Nat.zero_add, ← Array.getElem?_toList]
        exact hj
      · obtain ⟨v, hv, -⟩ := h.slot_of_index k i hx
        exact absurd rfl (ha _ ((hlive _).mpr ⟨Array.mem_of_getElem? hv, rfl⟩))
    · rintro ⟨v, hv⟩
      rw [← Array.getElem?_toList] at hv
      exact Or.inl ⟨i, ⟨k, v, true⟩, hv, rfl, (Nat.zero_add i).symm⟩
  size_eq := by
    rw [entries_compact]
    exact h.size_eq
  dead_none s hs hl := by
    have hx := (Array.mem_filter.mp hs).2
    rw [hl] at hx
    cases hx

/-- The empty dictionary is well formed. -/
theorem wf_empty : ({} : Dictionary).WF := ⟨coherent_empty, Nat.le_refl _⟩

/-- A dictionary without slots is well formed, whatever its version. -/
theorem wf_clear (d : Dictionary) : d.clear.WF := by
  refine ⟨⟨by simp [clear], rfl, by simp [clear]⟩, Nat.le_refl _⟩

/-- After settling, dead slots do not outnumber the entries. -/
theorem wf_settle (d : Dictionary) (h : d.Coherent) : d.settle.WF := by
  unfold settle
  split
  · refine ⟨coherent_compact d h, ?_⟩
    have hs : d.compact.slots.size = d.size := by
      rw [h.size_eq, entries, List.length_map, compact, ← Array.length_toList, Array.toList_filter]
    rw [tombstones, hs]
    exact Nat.le_trans (Nat.sub_le _ _) (Nat.le_refl _)
  · next hn => exact ⟨h, Nat.le_of_not_lt hn⟩

/-- A well-formed dictionary has at most two slots for an entry. -/
theorem WF.slots_size_le {d : Dictionary} (h : d.WF) : d.slots.size ≤ 2 * d.size := by
  have ht := h.tombstones_le
  rw [tombstones] at ht
  omega

/-- A well-formed dictionary without entries has no slots. -/
theorem WF.slots_eq_empty {d : Dictionary} (h : d.WF) (hd : d.isEmpty = true) :
    d.slots = #[] := by
  have hs := h.slots_size_le
  rw [eq_of_beq hd, Nat.mul_zero] at hs
  exact Array.eq_empty_of_size_eq_zero (Nat.le_zero.mp hs)

end Dictionary
end Scriptlet
