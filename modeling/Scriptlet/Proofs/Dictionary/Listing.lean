import Scriptlet.Proofs.Heap.Indexing

/-!
# Dictionaries made of pairs

Pairs of keys and values that are written one after the other into an empty dictionary are listed
there by their keys, each in the place of its first pair and with the value of its last one, and no
slot is dead. A new dictionary that is made of all pairs at once is the same.
-/

namespace Scriptlet

/-- The value of the last pair with a key. -/
def EntryList.last? (pairs : EntryList) (k : Key) : Option Value := pairs.reverse.lookup k

private theorem EntryList.last?_append_singleton (pairs : EntryList) (k k' : Key) (v : Value) :
    last? (pairs ++ [(k, v)]) k' = if k' = k then some v else last? pairs k' := by
  rw [last?, List.reverse_append, List.reverse_singleton, List.singleton_append, List.lookup_cons,
    ← last?]
  by_cases hk : k' = k
  · rw [if_pos hk, hk, beq_self_eq_true]
  · rw [if_neg hk, beq_false_of_ne hk]

private theorem eraseDups_append_singleton (ks : List Key) (k : Key) :
    (ks ++ [k]).eraseDups = if k ∈ ks then ks.eraseDups else ks.eraseDups ++ [k] := by
  rw [List.eraseDups_append, List.removeAll]
  by_cases hk : k ∈ ks
  · rw [if_pos hk, List.filter_cons_of_neg (by simpa using hk), List.filter_nil,
      List.eraseDups_nil, List.append_nil]
  · rw [if_neg hk, List.filter_cons_of_pos (by simpa using hk), List.filter_nil]
    rfl

namespace Dictionary

/-- The dictionary after pairs are written, one after the other. -/
def setAll (d : Dictionary) (pairs : EntryList) : Dictionary :=
  pairs.foldl (fun d (k, v) ↦ d.set k v) d

/-- A dictionary has the keys of the pairs in the order of their first occurrences, under each the
value of its last occurrence, and no dead slot. -/
structure Lists (d : Dictionary) (pairs : EntryList) : Prop where
  wf : d.WF
  keys : d.keys = (pairs.map (·.1)).eraseDups
  find? : ∀ k, d.find? k = pairs.last? k
  live : ∀ s ∈ d.slots, s.live = true

variable {d : Dictionary}

private theorem WF.find?_set_self (h : d.WF) (k : Key) (v : Value) :
    (d.set k v).find? k = some v := by
  have hset : (d.set k v).WF := h.put k v
  exact (hset.find?_eq_some_iff k v).mpr (h.mem_entries_set k v)

private theorem live_set (hd : ∀ s ∈ d.slots, s.live = true) (k : Key) (v : Value) :
    ∀ s ∈ (d.set k v).slots, s.live = true := by
  intro s hs
  rw [set, put] at hs
  cases hi : d.index[k]? with
  | none =>
    rw [hi] at hs
    rcases Array.mem_push.mp hs with hs | rfl
    · exact hd s hs
    · rfl
  | some i =>
    rw [hi] at hs
    obtain ⟨j, hj, rfl⟩ := Array.mem_iff_getElem.mp hs
    simp only [overwriteAt, Array.size_modify] at hj
    simp only [overwriteAt, Array.getElem_modify]
    split <;> exact hd d.slots[j] (Array.getElem_mem hj)

namespace Lists

variable {pairs : EntryList}

private theorem nil : ({} : Dictionary).Lists [] where
  wf := wf_empty
  keys := rfl
  find? _ := rfl
  live s hs := absurd hs (Array.not_mem_empty s)

private theorem set (h : d.Lists pairs) (k : Key) (v : Value) :
    (d.set k v).Lists (pairs ++ [(k, v)]) where
  wf := h.wf.put k v
  keys := by
    rw [h.wf.keys_set, h.keys, List.map_append, List.map_singleton, eraseDups_append_singleton]
    simp only [List.mem_eraseDups]
  find? k' := by
    rw [EntryList.last?_append_singleton]
    by_cases hk : k' = k
    · rw [if_pos hk, hk, h.wf.find?_set_self]
    · rw [if_neg hk, h.wf.find?_set_of_ne hk, h.find?]
  live := live_set h.live k v

/-- A dictionary into which pairs are written lists them too. -/
theorem setAll (h : d.Lists pairs) (more : EntryList) : (d.setAll more).Lists (pairs ++ more) := by
  induction more generalizing d pairs with
  | nil => rwa [List.append_nil]
  | cons p more ih =>
    have hset := ih (h.set p.1 p.2)
    rwa [List.append_assoc, List.singleton_append] at hset

/-- The entries are the keys of the pairs, each with its last value. -/
theorem entries (h : d.Lists pairs) :
    d.entries.map (fun p ↦ (p.1, some p.2)) =
      (pairs.map (·.1)).eraseDups.map fun k ↦ (k, pairs.last? k) := by
  rw [← h.keys, Dictionary.keys, List.map_map]
  apply List.map_congr_left
  rintro ⟨k, v⟩ hp
  rw [Function.comp_apply, ← h.find?, (h.wf.find?_eq_some_iff k v).mpr hp]

/-- There are no dead slots to count. -/
theorem tombstones (h : d.Lists pairs) : d.tombstones = 0 := by
  have hall : d.slots.toList.filter (·.live) = d.slots.toList :=
    List.filter_eq_self.mpr fun s hs ↦ h.live s (Array.mem_toList_iff.mp hs)
  rw [Dictionary.tombstones, h.wf.size_eq, Dictionary.entries, hall, List.length_map,
    Array.length_toList, Nat.sub_self]

end Lists
end Dictionary

namespace Heap

/-- What there is after a new dictionary was made of pairs. -/
structure Makes (h : Heap) (pairs : EntryList) (r : DictRef) (h' : Heap) : Prop where
  /-- The dictionary is new. -/
  isNew : ¬ h.Has (.dict r)
  has : ∀ c, h'.Has c ↔ h.Has c ∨ c = .dict r
  others : ∀ c, h.Has c → h.Unchanged h' c
  lists : (h'.dict r).Lists pairs
  entries : (h'.dict r).entries.map (fun p ↦ (p.1, some p.2)) =
    (pairs.map (·.1)).eraseDups.map fun k ↦ (k, pairs.last? k)
  tombstones : (h'.dict r).tombstones = 0
  /-- Writing the pairs one after the other into a new dictionary leaves the same heap. -/
  written : (h.newDict {}).1 = r ∧
    pairs.foldlM (fun h p ↦ h.write (.dict r) p.1.toValue p.2) (h.newDict {}).2 = .ok h'

end Heap
end Scriptlet
