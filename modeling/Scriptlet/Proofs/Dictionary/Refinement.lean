import Scriptlet.Proofs.Heap.History

/-!
# Dictionaries as association lists

A dictionary behaves as the list of its entries: a new key goes to the end, a present key
keeps its place, a removed key leaves the others in order. The slots, the index and the
squeezing of dead slots are invisible. The statement is made for a whole family of
dictionaries that are made, copied and changed in any order, so a copy and its original are
two lists from then on.
-/

namespace Scriptlet

/-- An association list, oldest key first. -/
abbrev EntryList := List (Key × Value)

namespace EntryList

/-- The list with another value under a key. -/
def replace (l : EntryList) (k : Key) (v : Value) : EntryList :=
  l.map fun p ↦ if p.1 = k then (k, v) else p

/-- What an action answers, and what it makes of the list. -/
def act (l : EntryList) : Dictionary.Action → Dictionary.Response × EntryList
  | .set k v =>
    if k ∈ l.map (·.1) then (.inserted false, l.replace k v) else (.inserted true, l ++ [(k, v)])
  | .remove k wanted =>
    match l.lookup k with
    | some v => (.removed true (if wanted then some v else none), l.filter fun p ↦ p.1 ≠ k)
    | none => (.removed false none, l)
  | .overwrite k v => (.overwritten (decide (k ∈ l.map (·.1))), l.replace k v)
  | .clear => (.done, [])
  | .reserve _ => (.done, l)
  | .takeValues out => (.taken (out ++ l.map (·.2)), [])

/-- What an operation answers, and what it makes of a family of lists. The lists go by the
order in which they were made. -/
def operate (family : List EntryList) : Heap.Operation → Dictionary.Response × List EntryList
  | .newArray _ => (.done, family)
  | .setArray _ _ => (.done, family)
  | .newDict => (.done, family ++ [[]])
  | .onDict r a =>
    let (response, l) := (family.getD r.index []).act a
    (response, family.set r.index l)
  | .copyDict r => (.done, family ++ [family.getD r.index []])

/-- Operates on a family one operation after the other. -/
def operateAll (family : List EntryList) :
    List Heap.Operation → List Dictionary.Response × List EntryList
  | [] => ([], family)
  | op :: ops =>
    let (response, family) := operate family op
    let (responses, family) := operateAll family ops
    (response :: responses, family)

private theorem lookup_eq_some_iff (l : EntryList) (hl : (l.map (·.1)).Nodup) (k : Key)
    (v : Value) : l.lookup k = some v ↔ (k, v) ∈ l := by
  induction l with
  | nil => simp
  | cons p l ih =>
    obtain ⟨a, w⟩ := p
    have hn := List.nodup_cons.mp hl
    rw [List.lookup_cons, List.mem_cons, Prod.mk.injEq]
    by_cases hk : k = a
    · subst hk
      have hm : (k, v) ∉ l := fun hm ↦ hn.1 (List.mem_map.mpr ⟨(k, v), hm, rfl⟩)
      simp [hm, eq_comm]
    · have hb : (k == a) = false := beq_eq_false_iff_ne.mpr hk
      simp [hb, hk, ih hn.2]

/-- Replacing under an absent key changes nothing. -/
theorem replace_of_notMem (l : EntryList) (k : Key) (v : Value) (hk : k ∉ l.map (·.1)) :
    l.replace k v = l := by
  apply (List.map_congr_left ?_).trans (List.map_id _)
  intro p hp
  exact if_neg fun he ↦ hk (List.mem_map.mpr ⟨p, hp, he⟩)

end EntryList

namespace Dictionary

/-- A dictionary answers every question as an association list would. -/
structure Represents (d : Dictionary) (l : EntryList) : Prop where
  nodup : (l.map (·.1)).Nodup
  find? : ∀ k, d.find? k = l.lookup k
  contains : ∀ k, d.contains k = true ↔ k ∈ l.map (·.1)
  size : d.size = l.length
  isEmpty : d.isEmpty = l.isEmpty
  keys : d.keys = l.map (·.1)
  live : d.slots.toList.filter (·.live) = l.map fun p ↦ ⟨p.1, p.2, true⟩

variable {d : Dictionary}

/-- A key is looked up as in the list of entries. -/
theorem Coherent.find?_eq_lookup (h : d.Coherent) (k : Key) : d.find? k = d.entries.lookup k := by
  apply Option.ext
  intro v
  rw [h.find?_eq_some_iff, EntryList.lookup_eq_some_iff _ h.nodup_keys]

/-- A coherent dictionary represents the list of its entries. -/
theorem Coherent.represents (h : d.Coherent) : d.Represents d.entries where
  nodup := h.nodup_keys
  find? := h.find?_eq_lookup
  contains := h.contains_iff
  size := h.size_eq
  isEmpty := by
    rw [Dictionary.isEmpty, h.size_eq]
    cases d.entries <;> rfl
  keys := rfl
  live := by
    rw [entries, List.map_map]
    apply (List.map_id _).symm.trans
    apply List.map_congr_left
    rintro ⟨k, v, live⟩ hs
    have hl : live = true := (List.mem_filter.mp hs).2
    rw [hl]
    rfl

/-- Writing an entry does to the list of entries what it should. -/
theorem Coherent.put_entries (h : d.Coherent) (k : Key) (v : Value) :
    (Response.inserted (d.put k v).1, (d.put k v).2.entries) =
      EntryList.act d.entries (.set k v) := by
  rcases h.index_cases k with ⟨hi, hk⟩ | ⟨i, w, hi, hs, hm⟩
  · have hk' : k ∉ d.entries.map (·.1) := hk
    simp only [put, hi, EntryList.act, if_neg hk', entries_append]
  · have hk : k ∈ d.entries.map (·.1) := List.mem_map.mpr ⟨(k, w), hm, rfl⟩
    simp only [put, hi, EntryList.act, if_pos hk, entries_overwriteAt d h i k v w hs,
      EntryList.replace]

private theorem Coherent.overwrite_entries (h : d.Coherent) (k : Key) (v : Value) :
    (Response.overwritten (d.find? k).isSome, (d.overwrite k v).entries) =
      EntryList.act d.entries (.overwrite k v) := by
  have hf : (d.find? k).isSome = decide (k ∈ d.entries.map (·.1)) := by
    rw [Bool.eq_iff_iff, decide_eq_true_iff, ← h.represents.contains, contains,
      Std.TreeMap.contains_eq_isSome_getElem?]
    rcases h.index_cases k with ⟨hi, -⟩ | ⟨i, w, hi, hs, -⟩
    · simp [find?, hi]
    · simp [find?, hi, -Option.isSome_map, hs]
  rcases h.index_cases k with ⟨hi, hk⟩ | ⟨i, w, hi, hs, -⟩
  · simp only [overwrite, hi, EntryList.act, hf, EntryList.replace_of_notMem _ k v hk]
  · simp only [overwrite, hi, EntryList.act, hf, entries_overwriteAt d h i k v w hs,
      EntryList.replace]

private theorem Coherent.remove_entries (h : d.Coherent) (k : Key) (wanted : Bool) :
    ((d.act (.remove k wanted)).1, (d.act (.remove k wanted)).2.entries) =
      EntryList.act d.entries (.remove k wanted) := by
  have hf := h.find?_eq_lookup k
  rcases h.index_cases k with ⟨hi, -⟩ | ⟨i, w, hi, hs, -⟩
  · have hl : d.entries.lookup k = none := by rw [← hf, find?, hi]; rfl
    simp only [act, remove?, hi, EntryList.act, hl]
  · have hl : d.entries.lookup k = some w := by rw [← hf, find?, hi, Option.bind_some, hs]; rfl
    have he : (d.kill k i).settle.entries = d.entries.filter fun p ↦ p.1 ≠ k := by
      rw [← entries_kill d h i k w hs, settle]
      split
      · exact entries_compact _
      · rfl
    simp only [act, remove?, hi, EntryList.act, hl, hs, Option.map_some, Option.getD_some, he]

/-- Every action does to a well-formed dictionary what it does to the list of its entries. -/
theorem Coherent.act_entries (h : d.Coherent) (a : Action) :
    ((d.act a).1, (d.act a).2.entries) = EntryList.act d.entries a := by
  cases a with
  | set k v => exact h.put_entries k v
  | remove k wanted => exact h.remove_entries k wanted
  | overwrite k v => exact h.overwrite_entries k v
  | clear => rfl
  | reserve room => rfl
  | takeValues out => rfl

end Dictionary

namespace Heap

/-- The entries of every dictionary, oldest dictionary first. -/
def contents (h : Heap) : List EntryList := h.dicts.toList.map (·.entries)

private theorem getD_contents (h : Heap) (r : DictRef) :
    h.contents.getD r.index [] = (h.dict r).entries := by
  rw [contents, dict, List.getD_eq_getElem?_getD, List.getElem?_map, Array.getElem?_toList,
    Array.getD_eq_getD_getElem?]
  cases h.dicts[r.index]? <;> rfl

/-- Every operation does to a well-formed heap what it does to the family of its entries. -/
theorem WF.operate_contents {h : Heap} (hw : h.WF) (op : Operation) :
    ((h.operate op).1, (h.operate op).2.contents) = EntryList.operate h.contents op := by
  cases op with
  | newArray elements => rfl
  | setArray r elements => rfl
  | newDict => simp [Heap.operate, EntryList.operate, Heap.newDict, contents]
  | onDict r a =>
    have ha := (hw r).act_entries a
    rw [← getD_contents] at ha
    simp only [Heap.operate, EntryList.operate, ← ha, Prod.mk.injEq, true_and]
    apply List.ext_getElem?
    intro i
    simp only [contents, modifyDict, Array.toList_modify, List.getElem?_map, List.getElem?_modify,
      List.getElem?_set, List.length_map, Array.length_toList, Array.getElem?_toList]
    by_cases hi : r.index = i
    · subst hi
      by_cases hs : r.index < h.dicts.size <;> simp [hs]
    · simp [hi]
  | copyDict r =>
    simp only [Heap.operate, EntryList.operate, getD_contents]
    simp [Heap.newDict, contents]

/-- Operations do to a well-formed heap what they do to the family of its entries. -/
theorem WF.operateAll_contents {h : Heap} (hw : h.WF) (ops : List Operation) :
    (h.operateAll ops).2.WF ∧
      ((h.operateAll ops).1, (h.operateAll ops).2.contents) =
        EntryList.operateAll h.contents ops := by
  induction ops generalizing h with
  | nil => exact ⟨hw, rfl⟩
  | cons op ops ih =>
    have hstep := hw.operate_contents op
    obtain ⟨hrest, hrun⟩ := ih (hw.operate op)
    refine ⟨hrest, ?_⟩
    simp only [operateAll, EntryList.operateAll, ← hstep, ← hrun]

/-- From one empty dictionary on, through any operations on it, on other dictionaries and on
copies, all answers are those of a family of association lists, and every dictionary
represents its list. -/
theorem operateAll_represents (ops : List Operation) :
    let run := (({} : Heap).newDict {}).2.operateAll ops
    let spec := EntryList.operateAll [[]] ops
    run.1 = spec.1 ∧ ∀ r, (run.2.dict r).Represents (spec.2.getD r.index []) := by
  intro run spec
  have hw : (({} : Heap).newDict {}).2.WF := wf_empty.newDict _ Dictionary.wf_empty
  obtain ⟨hrun, he⟩ := hw.operateAll_contents ops
  have hspec : (run.1, run.2.contents) = spec := he
  refine ⟨congrArg Prod.fst hspec, fun r ↦ ?_⟩
  rw [← hspec, getD_contents]
  exact (hrun r).represents

end Heap
end Scriptlet
