import Scriptlet.Proofs.Heap.Rewriting
import Scriptlet.Proofs.Session.Reached

/-!
# Laws of reading and writing by index

What is written under an index is read there through every handle, and nothing else changes: other
indices read as before, an array keeps its length, a dictionary the order of its keys, and every
other container what it holds. Writing twice is writing the last time only. An array takes values
where it has elements, a dictionary under every integer and string, and a write that is refused
leaves everything as it is.
-/

namespace Scriptlet

namespace Dictionary

variable {d : Dictionary}

/-- A key that is there keeps its place, and a new one becomes the last. -/
theorem Coherent.keys_set (h : d.Coherent) (k : Key) (v : Value) :
    (d.set k v).keys = if k ∈ d.keys then d.keys else d.keys ++ [k] := by
  split
  · next hk =>
    rw [keys, h.entries_set_of_mem hk, EntryList.replace, List.map_map]
    apply List.map_congr_left
    intro p _
    simp only [Function.comp_apply]
    split
    · next hp => exact hp.symm
    · rfl
  · next hk => rw [keys, h.entries_set_of_notMem hk, List.map_append, List.map_singleton, ← keys]

private theorem Coherent.mem_entries_set_of_ne (h : d.Coherent) {k k' : Key} (hne : k' ≠ k)
    (v w : Value) : (k', w) ∈ (d.set k v).entries ↔ (k', w) ∈ d.entries := by
  by_cases hk : k ∈ d.keys
  · rw [h.entries_set_of_mem hk, EntryList.replace, List.mem_map]
    constructor
    · rintro ⟨p, hp, heq⟩
      split at heq
      · cases heq
        exact absurd rfl hne
      · exact heq ▸ hp
    · exact fun hp ↦ ⟨(k', w), hp, if_neg hne⟩
  · rw [h.entries_set_of_notMem hk, List.mem_append, List.mem_singleton, Prod.mk.injEq]
    exact or_iff_left fun he ↦ hne he.1

/-- Other keys are found as before. -/
theorem WF.find?_set_of_ne (h : d.WF) {k k' : Key} (hne : k' ≠ k) (v : Value) :
    (d.set k v).find? k' = d.find? k' := by
  have hset : (d.set k v).WF := h.put k v
  apply Option.ext
  intro w
  rw [hset.find?_eq_some_iff, h.find?_eq_some_iff]
  exact h.mem_entries_set_of_ne hne v w

private theorem set_set (d : Dictionary) (k : Key) (v w : Value) :
    (d.set k v).set k w = d.set k w := by
  simp only [set, put]
  cases hi : d.index[k]? with
  | some i =>
    have hslots : (d.slots.modify i fun s ↦ { s with value := v }).modify i
        (fun s ↦ { s with value := w }) = d.slots.modify i fun s ↦ { s with value := w } := by
      apply Array.toList_inj.mp
      rw [Array.toList_modify, Array.toList_modify, Array.toList_modify, List.modify_modify_eq]
      rfl
    simp only [overwriteAt, hi, hslots]
  | none =>
    have hindex : (d.append k v).index[k]? = some d.slots.size := by
      rw [append, Std.TreeMap.getElem?_insert_self]
    have hslots : (d.slots.push ⟨k, v, true⟩).modify d.slots.size
        (fun s ↦ { s with value := w }) = d.slots.push ⟨k, w, true⟩ := by
      apply Array.ext
      · rw [Array.size_modify, Array.size_push, Array.size_push]
      · intro i hi _
        rw [Array.size_modify, Array.size_push] at hi
        rw [Array.getElem_modify, Array.getElem_push, Array.getElem_push]
        by_cases he : d.slots.size = i
        · simp [he]
        · have hlt : i < d.slots.size := by omega
          simp [he, hlt]
    simp only [hindex]
    simp only [overwriteAt, append, hslots]

end Dictionary

/-- The values that a container can be written under: an array under those that it can be read at,
a dictionary under all integers and strings. -/
def Container.Accepts (h : Heap) (key : Value) : Container → Prop
  | .array r => ∃ v, h.read (.array r) key = .ok v
  | .dict _ => key.type = .int ∨ key.type = .string

namespace Heap

/-- What there is after `v` was written into a container under `key`. -/
structure Stores (h : Heap) (c : Container) (key v : Value) (h' : Heap) : Prop where
  /-- The value is read through every handle. -/
  reads : ∀ a : Value, a.container? = some c → h'.read a key = .ok v
  /-- Under any other value there is what was there, or still nothing for a reason of that kind. -/
  elsewhere : ∀ a key' : Value, a.container? = some c → key' ≠ key →
    (h'.read a key').mapError Cause.kind = (h.read a key').mapError Cause.kind
  length : ∀ r, c = .array r → (h'.array r).size = (h.array r).size
  keys : ∀ r, c = .dict r → ∃ k, key = k.toValue ∧
    (h'.dict r).keys = if k ∈ (h.dict r).keys then (h.dict r).keys else (h.dict r).keys ++ [k]
  others : ∀ d, d ≠ c → h.Unchanged h' d
  has : ∀ d, h'.Has d ↔ h.Has d
  /-- Another value may be written as if this one had not been. -/
  again : ∀ a w : Value, a.container? = some c → h'.write a key w = h.write a key w

variable {h h' : Heap} {key v : Value}

private theorem modifyArray_modifyArray (h : Heap) (r : ArrayRef)
    (f g : Array Value → Array Value) :
    (h.modifyArray r f).modifyArray r g = h.modifyArray r (g ∘ f) := by
  simp only [modifyArray, mk.injEq, and_true]
  apply Array.toList_inj.mp
  rw [Array.toList_modify, Array.toList_modify, Array.toList_modify, List.modify_modify_eq]

private theorem modifyDict_modifyDict (h : Heap) (r : DictRef) (f g : Dictionary → Dictionary) :
    (h.modifyDict r f).modifyDict r g = h.modifyDict r (g ∘ f) := by
  simp only [modifyDict, mk.injEq, true_and]
  apply Array.toList_inj.mp
  rw [Array.toList_modify, Array.toList_modify, Array.toList_modify, List.modify_modify_eq]

private theorem stores_array {r : ArrayRef} (has : h.Has (.array r))
    (written : h.write (.array r) key v = .ok h') : h.Stores (.array r) key v h' := by
  have rewrites := rewrites_array written
  cases hi : arrayPosition (h.array r).size key with
  | error cause => simp [write, hi, bind, Except.bind] at written
  | ok i =>
    simp only [write, hi, bind, Except.bind, Except.ok.injEq] at written
    subst written
    have hself : (h.modifyArray r (·.setIfInBounds i v)).array r =
        (h.array r).setIfInBounds i v := array_modifyArray_self h r _ has
    have hsize : ((h.modifyArray r (·.setIfInBounds i v)).array r).size = (h.array r).size := by
      rw [hself, Array.size_setIfInBounds]
    refine ⟨fun a ha ↦ ?_, fun a key' ha hne ↦ ?_, fun s hs ↦ ?_,
      fun s hs ↦ (by cases hs), fun d hd ↦ ?_, rewrites.has, fun a w ha ↦ ?_⟩
    · cases (a.container?_eq_some_iff _).mp ha
      exact rewrites.holds
    · cases (a.container?_eq_some_iff _).mp ha
      simp only [Container.handle, read, hsize]
      cases hi' : arrayPosition (h.array r).size key' with
      | error cause => rfl
      | ok i' =>
        -- Two integers that name one position are equal.
        have hpos : i ≠ i' := by
          rintro rfl
          obtain ⟨n, rfl, hn, -⟩ := (arrayPosition_eq_ok_iff _ _ _).mp hi
          obtain ⟨n', rfl, hn', -⟩ := (arrayPosition_eq_ok_iff _ _ _).mp hi'
          exact hne (congrArg Value.int (Int64.toInt_inj.mp (hn'.symm.trans hn)))
        simp only [bind, Except.bind, hself, Array.getD_eq_getD_getElem?,
          Array.getElem?_setIfInBounds_ne hpos]
    · cases hs
      exact hsize
    · exact rewrites.others d fun he ↦ hd (Option.some.inj he).symm
    · cases (a.container?_eq_some_iff _).mp ha
      simp only [Container.handle, write, hsize, hi, bind, Except.bind, modifyArray_modifyArray]
      congr 2
      funext xs
      exact Array.setIfInBounds_setIfInBounds ..

/-- Laws of writing to a dictionary. -/
theorem stores_dict (hw : h.WF) {r : DictRef} (has : h.Has (.dict r))
    (written : h.write (.dict r) key v = .ok h') : h.Stores (.dict r) key v h' := by
  have rewrites := rewrites_dict hw has written
  cases hk : dictKey key with
  | error cause => simp [write, hk, bind, Except.bind] at written
  | ok k =>
    simp only [write, hk, bind, Except.bind, Except.ok.injEq] at written
    subst written
    obtain rfl := (dictKey_eq_ok_iff _ _).mp hk
    have hself : (h.modifyDict r (·.set k v)).dict r = (h.dict r).set k v :=
      dict_modifyDict_self h r _ has
    refine ⟨fun a ha ↦ ?_, fun a key' ha hne ↦ ?_, fun s hs ↦ (by cases hs), fun s hs ↦ ?_,
      fun d hd ↦ ?_, rewrites.has, fun a w ha ↦ ?_⟩
    · cases (a.container?_eq_some_iff _).mp ha
      exact rewrites.holds
    · cases (a.container?_eq_some_iff _).mp ha
      simp only [Container.handle, read]
      cases hk' : dictKey key' with
      | error cause => rfl
      | ok k' =>
        obtain rfl := (dictKey_eq_ok_iff _ _).mp hk'
        have hfind : ((h.dict r).set k v).find? k' = (h.dict r).find? k' :=
          (hw r).find?_set_of_ne (fun he ↦ hne (congrArg Key.toValue he)) v
        simp only [bind, Except.bind, hself, hfind]
        -- The number of entries, which the failure tells, may have changed; its kind has not.
        cases (h.dict r).find? k' <;> rfl
    · cases hs
      exact ⟨k, rfl, by rw [hself, (hw r).keys_set]⟩
    · exact rewrites.others d fun he ↦ hd (Option.some.inj he).symm
    · cases (a.container?_eq_some_iff _).mp ha
      simp only [Container.handle, write, hk, bind, Except.bind, modifyDict_modifyDict]
      congr 2
      funext d
      exact Dictionary.set_set ..

/-- What has been accepted is laid down by the laws. -/
theorem stores_of_write (hw : h.WF) {c : Container} (has : h.Has c)
    (written : h.write c.handle key v = .ok h') : h.Stores c key v h' := by
  cases c with
  | array r => exact stores_array has written
  | dict r => exact stores_dict hw has written

/-- A container takes a value under exactly the indices that it accepts. -/
theorem write_eq_ok_iff (h : Heap) (c : Container) (key v : Value) :
    (∃ h', h.write c.handle key v = .ok h') ↔ c.Accepts h key := by
  cases c with
  | array r =>
    simp only [Container.handle, Container.Accepts, write, read]
    cases arrayPosition (h.array r).size key <;> simp [bind, Except.bind]
  | dict r =>
    simp only [Container.handle, Container.Accepts, write]
    cases key <;> simp [dictKey, Key.ofValue?, Value.type, bind, Except.bind]

end Heap

/-- A host with a heap `h` that writes the value of one register into the container of another,
under the value of a third one, is left with the heap `h'` and with everything else as it was. -/
def Session.WriteLeaves (h : Heap) (container key v : Value) (h' : Heap) : Prop :=
  ∀ (s : Session) (a b d : Bytes) (l : Location), s.heap = h → s.registers[a]? = some container →
    s.registers[b]? = some key → s.registers[d]? = some v →
    (s.step (.value (.write (.register a) (.register b) (.register d) l))).2 = { s with heap := h' }

/-- What a host is left with depends on whether the write is accepted. -/
theorem Session.writeLeaves (h : Heap) (container key v : Value) :
    WriteLeaves h container key v ((h.write container key v).toOption.getD h) := by
  rintro s a b d l rfl ha hb hd
  have hvalue {r : Bytes} {w : Value} (hr : s.registers[r]? = some w) :
      SessionM.value (.register r) s = .ok (w, s) := by
    change Except.ok (s.registers.getD r .none, s) = .ok (w, s)
    rw [Std.TreeMap.getD_eq_getD_getElem?, hr]
    rfl
  have hget : (get : SessionM Session) s = .ok (s, s) := rfl
  simp only [step, stepWhole, ValueOperation.run, Bind.bind, StateT.bind, Except.bind, hvalue ha,
    hvalue hb, hvalue hd, hget]
  cases s.heap.write container key v with
  | ok h' => rfl
  | error cause => rfl

namespace Heap

/-- How writing `v` into a container under `key` turns out. -/
inductive Writes (h : Heap) (c : Container) (key v : Value) : Except Cause Heap → Prop where
  | stored {h' : Heap} (accepted : c.Accepts h key) (stores : h.Stores c key v h')
      (host : Session.WriteLeaves h c.handle key v h') : Writes h c key v (.ok h')
  | refused {cause : Cause} (refused : ¬ c.Accepts h key)
      (host : Session.WriteLeaves h c.handle key v h) : Writes h c key v (.error cause)

/-- In every heap that a session reaches, writing a value into a container, which may hold itself
then, obeys the laws of indexing. -/
theorem write_lawful {h : Heap} (reached : h.Reached) {c : Container} (has : h.Has c)
    (key v : Value) : h.Writes c key v (h.write c.handle key v) := by
  have accepts := write_eq_ok_iff h c key v
  have host := Session.writeLeaves h c.handle key v
  cases written : h.write c.handle key v with
  | ok h' =>
    rw [written] at accepts host
    exact .stored (accepts.mp ⟨h', rfl⟩) (stores_of_write reached.wf has written) host
  | error cause =>
    rw [written] at accepts host
    exact .refused (fun ha ↦ by simpa using accepts.mpr ha) host

/-- An array is written into itself. -/
theorem write_lawful_self :
    let h := ((Session.start "e" 8).steps [.value (.set "a" (.array [.none]))]).2.heap
    let c := Container.array ⟨0⟩
    h.Reached ∧ h.Has c ∧ h.Writes c (.int 0) c.handle (h.write c.handle (.int 0) c.handle) ∧
      ∃ h', h.write c.handle (.int 0) c.handle = .ok h' ∧ h'.array ⟨0⟩ = #[.array ⟨0⟩] := by
  intro h c
  have reached : h.Reached := .between (.after "e" 8 _)
  have has : h.Has c := Nat.zero_lt_one
  exact ⟨reached, has, write_lawful reached has (.int 0) c.handle, _, rfl, rfl⟩

end Heap
end Scriptlet
