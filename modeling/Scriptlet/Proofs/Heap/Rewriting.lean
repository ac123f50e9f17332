import Scriptlet.Proofs.Dictionary.Refinement
import Scriptlet.Proofs.Locality.Growth

/-!
# Writing by index changes one place

A write by index that succeeds replaces one element of an array, or the value of one entry of a
dictionary, or adds one entry to it. All other elements and entries keep their values and their
places, all other containers hold what they held, and the value is found where it was written.
-/

namespace Scriptlet

namespace Dictionary

variable {d : Dictionary}

/-- Writing under a key that is there replaces its value. -/
theorem Coherent.entries_set_of_mem (h : d.Coherent) {k : Key} (hk : k ∈ d.keys) (v : Value) :
    (d.set k v).entries = EntryList.replace d.entries k v :=
  (congrArg Prod.snd (h.put_entries k v)).trans (congrArg Prod.snd (if_pos hk))

/-- Writing under a new key adds an entry behind the others. -/
theorem Coherent.entries_set_of_notMem (h : d.Coherent) {k : Key} (hk : k ∉ d.keys) (v : Value) :
    (d.set k v).entries = d.entries ++ [(k, v)] :=
  (congrArg Prod.snd (h.put_entries k v)).trans (congrArg Prod.snd (if_neg hk))

/-- The entry that was written is there. -/
theorem Coherent.mem_entries_set (h : d.Coherent) (k : Key) (v : Value) :
    (k, v) ∈ (d.set k v).entries := by
  by_cases hk : k ∈ d.keys
  · rw [h.entries_set_of_mem hk]
    obtain ⟨p, hp, rfl⟩ := List.mem_map.mp hk
    exact List.mem_map.mpr ⟨p, hp, if_pos rfl⟩
  · rw [h.entries_set_of_notMem hk]
    exact List.mem_append_right _ List.mem_cons_self

end Dictionary

namespace Heap

/-- What a place of a container is made of, before and after `v` is written there. -/
inductive Replaced (h : Heap) (v : Value) (k : Heap) : (container key : Value) → Prop where
  /-- The element of an array at a position has another value. -/
  | element {r : ArrayRef} {i : Int64} {before after : List Value} {old : Value}
      (position : (before.length : Int) = i.toInt)
      (was : (h.array r).toList = before ++ old :: after)
      (now : (k.array r).toList = before ++ v :: after) : Replaced h v k (.array r) (.int i)
  /-- The entry of a key that was there has another value; no key is gained or lost. -/
  | overwritten {r : DictRef} {key : Key} {before after : List (Key × Value)} {old : Value}
      (was : (h.dict r).entries = before ++ (key, old) :: after)
      (now : (k.dict r).entries = before ++ (key, v) :: after)
      (version : (k.dict r).version = (h.dict r).version) :
      Replaced h v k (.dict r) key.toValue
  /-- There is an entry for a key that was not there, behind all others. -/
  | appended {r : DictRef} {key : Key} (isNew : key ∉ (h.dict r).keys)
      (now : (k.dict r).entries = (h.dict r).entries ++ [(key, v)])
      (version : (k.dict r).version = (h.dict r).version + 1) :
      Replaced h v k (.dict r) key.toValue

/-- Two heaps differ in one place of a container only, where now the value `v` is. -/
structure Rewrites (h : Heap) (container key v : Value) (k : Heap) : Prop where
  place : h.Replaced v k container key
  others : ∀ c, container.container? ≠ some c → h.Unchanged k c
  has : ∀ c, k.Has c ↔ h.Has c
  holds : k.read container key = .ok v

private theorem exists_set_eq {α : Type} {l : List α} {i : Nat} (hi : i < l.length) (v : α) :
    ∃ before old after, l = before ++ old :: after ∧ before.length = i ∧
      l.set i v = before ++ v :: after := by
  refine ⟨l.take i, l[i], l.drop (i + 1), ?_, ?_, ?_⟩
  · rw [List.getElem_cons_drop, List.take_append_drop]
  · rw [List.length_take, Nat.min_eq_left (Nat.le_of_lt hi)]
  · rw [List.set_eq_take_append_cons_drop, if_pos hi]

private theorem exists_replace_eq {l : EntryList} (hl : (l.map (·.1)).Nodup) {key : Key}
    (hkey : key ∈ l.map (·.1)) (v : Value) :
    ∃ before old after, l = before ++ (key, old) :: after ∧
      l.replace key v = before ++ (key, v) :: after := by
  obtain ⟨⟨key', old⟩, hmem, rfl⟩ := List.mem_map.mp hkey
  obtain ⟨before, after, rfl⟩ := List.append_of_mem hmem
  rw [List.map_append, List.map_cons, List.nodup_append, List.nodup_cons] at hl
  obtain ⟨-, ⟨hafter, -⟩, hne⟩ := hl
  have hbefore : key' ∉ before.map (·.1) := fun hb ↦ hne _ hb _ List.mem_cons_self rfl
  refine ⟨before, old, after, rfl, ?_⟩
  have hsplit : EntryList.replace (before ++ (key', old) :: after) key' v =
      EntryList.replace before key' v ++ (key', v) :: EntryList.replace after key' v := by
    rw [EntryList.replace, List.map_append, List.map_cons, if_pos rfl]
    rfl
  rw [hsplit, EntryList.replace_of_notMem _ _ v hbefore, EntryList.replace_of_notMem _ _ v hafter]

/-- The positions that values name are those of the integers below the length. -/
theorem arrayPosition_eq_ok_iff (length : Nat) (key : Value) (i : Nat) :
    arrayPosition length key = .ok i ↔
      ∃ n : Int64, key = .int n ∧ (i : Int) = n.toInt ∧ i < length := by
  cases key with
  | int n =>
    have hn := Int64.toNat_toInt n
    have hle : (0 ≤ n) ↔ 0 ≤ n.toInt := by rw [Int64.le_iff_toInt_le, Int64.toInt_zero]
    simp only [arrayPosition, Bool.and_eq_true, decide_eq_true_eq, hle, ← hn]
    split
    · next h =>
      simp only [Except.ok.injEq, Value.int.injEq, exists_eq_left']
      omega
    · next h =>
      simp only [reduceCtorEq, Value.int.injEq, exists_eq_left', false_iff]
      omega
  | _ => simp [arrayPosition]

/-- The keys that values name. -/
theorem dictKey_eq_ok_iff (v : Value) (key : Key) : dictKey v = .ok key ↔ v = key.toValue := by
  rw [← Key.ofValue?_eq_some_iff, dictKey]
  cases Key.ofValue? v <;> simp

variable {h k : Heap} {container key v : Value}

/-- Writing to an array. -/
theorem rewrites_array {r : ArrayRef} (written : h.write (.array r) key v = .ok k) :
    h.Rewrites (.array r) key v k := by
  cases hi : arrayPosition (h.array r).size key with
  | error cause => simp [write, hi, bind, Except.bind] at written
  | ok i =>
    simp only [write, hi, bind, Except.bind, Except.ok.injEq] at written
    subst written
    obtain ⟨n, rfl, hn, hlt⟩ := (arrayPosition_eq_ok_iff _ _ _).mp hi
    -- An array that has an element is an array of the heap.
    have has : h.Has (.array r) := by
      by_contra hno
      have hempty : h.array r = #[] := by
        have hle : ¬ r.index < h.arrays.size := hno
        simp [array, Array.getD, hle]
      rw [hempty] at hlt
      exact absurd hlt (Nat.not_lt_zero i)
    have hself := array_modifyArray_self h r (·.setIfInBounds i v) has
    obtain ⟨before, old, after, was, hlength, now⟩ :=
      exists_set_eq (l := (h.array r).toList) (by rwa [Array.length_toList]) v
    refine ⟨.element (hlength ▸ hn) was ?_, fun c hc ↦ h.unchanged_modifyArray _ fun he ↦ hc ?_,
      fun c ↦ h.has_modifyArray_iff r _, ?_⟩
    · rw [hself, Array.toList_setIfInBounds, now]
    · rw [he]
      rfl
    · have hpos := (arrayPosition_eq_ok_iff ((h.array r).setIfInBounds i v).size (.int n) i).mpr
        ⟨n, rfl, hn, by rwa [Array.size_setIfInBounds]⟩
      simp only [read, hself, hpos, bind, Except.bind]
      simp [Array.getD, hlt]

/-- Writing to a dictionary. -/
theorem rewrites_dict {r : DictRef} (hw : h.WF) (has : h.Has (.dict r))
    (written : h.write (.dict r) key v = .ok k) : h.Rewrites (.dict r) key v k := by
  have hwf := (evolves_write h k (.dict r) key v written).wf hw
  cases hk : dictKey key with
  | error cause => simp [write, hk, bind, Except.bind] at written
  | ok key' =>
    simp only [write, hk, bind, Except.bind, Except.ok.injEq] at written
    subst written
    obtain rfl := (dictKey_eq_ok_iff _ _).mp hk
    have hself := dict_modifyDict_self h r (·.set key' v) has
    have hd : (h.dict r).Coherent := (hw r).toCoherent
    have hset : ((h.modifyDict r (·.set key' v)).dict r).Coherent := (hwf r).toCoherent
    refine ⟨?_, fun c hc ↦ h.unchanged_modifyDict _ fun he ↦ hc ?_,
      fun c ↦ h.has_modifyDict_iff r _, ?_⟩
    · by_cases hkey : key' ∈ (h.dict r).keys
      · obtain ⟨before, old, after, was, now⟩ := exists_replace_eq hd.nodup_keys hkey v
        refine .overwritten was ?_ ?_
        · rw [hself, hd.entries_set_of_mem hkey, now]
        · rw [hself, Dictionary.version_set_of_contains ((hd.contains_iff key').mpr hkey)]
      · refine .appended hkey ?_ ?_
        · rw [hself, hd.entries_set_of_notMem hkey]
        · have hnew := Bool.eq_false_iff.mpr (mt (hd.contains_iff key').mp hkey)
          rw [hself, Dictionary.version_set_of_new hnew]
    · rw [he]
      rfl
    · have hfind : ((h.modifyDict r (·.set key' v)).dict r).find? key' = some v := by
        rw [hset.find?_eq_some_iff, hself]
        exact hd.mem_entries_set key' v
      simp only [read, hk, hfind, bind, Except.bind]

end Heap
end Scriptlet
