import Scriptlet.Proofs.Dictionary.Coherence

/-!
# What happens to a dictionary

Every change of a dictionary is one of a few actions. Each keeps it well formed, and each
either raises the version or leaves keys, live flags and index as they are. So two moments of
one history with the same version differ in values of live slots only.
-/

namespace Scriptlet.Dictionary

/-- What can be done to a dictionary. -/
inductive Action where
  | set (k : Key) (v : Value)
  /-- Removes a key; the old value is handed out if that is wanted. -/
  | remove (k : Key) (wanted : Bool)
  /-- Writes to the place that a search for the key has found, if it found one. -/
  | overwrite (k : Key) (v : Value)
  | clear
  | reserve (room : Nat)
  /-- Moves the values behind those of a list. -/
  | takeValues (out : List Value)
  deriving DecidableEq

/-- What an action answers. -/
inductive Response where
  | inserted (isNew : Bool)
  | removed (found : Bool) (old : Option Value)
  | overwritten (found : Bool)
  | taken (out : List Value)
  | done
  deriving DecidableEq

/-- Carries out an action. -/
def act (d : Dictionary) : Action → Response × Dictionary
  | .set k v => (.inserted (d.put k v).1, (d.put k v).2)
  | .remove k wanted =>
    match d.remove? k with
    | some (v, rest) => (.removed true (if wanted then some v else none), rest)
    | none => (.removed false none, d)
  | .overwrite k v => (.overwritten (d.find? k).isSome, d.overwrite k v)
  | .clear => (.done, d.clear)
  | .reserve room => (.done, d.reserve room)
  | .takeValues out => (.taken (d.takeValues out).1, (d.takeValues out).2)

/-- A key is either absent from index and entries, or names a live slot. -/
theorem Coherent.index_cases {d : Dictionary} (h : d.Coherent) (k : Key) :
    (d.index[k]? = none ∧ k ∉ d.keys) ∨
      ∃ i w, d.index[k]? = some i ∧ d.slots[i]? = some ⟨k, w, true⟩ ∧ (k, w) ∈ d.entries := by
  cases hi : d.index[k]? with
  | none =>
    left
    refine ⟨rfl, fun hk ↦ ?_⟩
    have hc := (h.contains_iff k).mpr hk
    rw [contains, Std.TreeMap.contains_eq_isSome_getElem?, hi] at hc
    cases hc
  | some i =>
    right
    obtain ⟨w, hw, hf⟩ := h.slot_of_index k i hi
    exact ⟨i, w, rfl, hw, (h.find?_eq_some_iff k w).mp hf⟩

section Shape

/-- Keys and live flags of the slots, oldest first. -/
def shape (d : Dictionary) : List (Key × Bool) := d.slots.toList.map fun s ↦ (s.key, s.live)

/-- The keys can be read off the shape. -/
theorem keys_eq_shape (d : Dictionary) : d.keys = (d.shape.filter (·.2)).map (·.1) := by
  simp [keys, entries, shape, List.filter_map, Function.comp_def]

/-- What the shape tells of a slot. -/
theorem getElem?_shape (d : Dictionary) (p : Nat) :
    d.shape[p]? = d.slots[p]?.map fun s ↦ (s.key, s.live) := by
  rw [shape, List.getElem?_map, Array.getElem?_toList]

/-- `e` is the dictionary `d` some actions later: its version is no lower, and as long as it is
the same, only values have changed. -/
structure Later (d e : Dictionary) : Prop where
  version_le : d.version ≤ e.version
  shape_eq : e.version = d.version → e.shape = d.shape
  index_eq : e.version = d.version → e.index = d.index

/-- A dictionary is later than itself. -/
theorem Later.refl (d : Dictionary) : d.Later d := ⟨Nat.le_refl _, fun _ ↦ rfl, fun _ ↦ rfl⟩

/-- What is later than a later dictionary is later than the dictionary. -/
theorem Later.trans {d e f : Dictionary} (hde : d.Later e) (hef : e.Later f) : d.Later f where
  version_le := Nat.le_trans hde.version_le hef.version_le
  shape_eq h := by
    have he : e.version = d.version :=
      Nat.le_antisymm (h ▸ hef.version_le) hde.version_le
    exact (hef.shape_eq (h.trans he.symm)).trans (hde.shape_eq he)
  index_eq h := by
    have he : e.version = d.version :=
      Nat.le_antisymm (h ▸ hef.version_le) hde.version_le
    exact (hef.index_eq (h.trans he.symm)).trans (hde.index_eq he)

private theorem later_of_lt {d e : Dictionary} (h : d.version < e.version) : d.Later e :=
  ⟨Nat.le_of_lt h, fun he ↦ absurd he (Nat.ne_of_gt h), fun he ↦ absurd he (Nat.ne_of_gt h)⟩

private theorem later_overwriteAt (d : Dictionary) (i : Nat) (v : Value) :
    d.Later (d.overwriteAt i v) where
  version_le := Nat.le_refl _
  shape_eq _ := by
    rw [shape, shape, overwriteAt, Array.toList_modify]
    apply List.ext_getElem?
    intro j
    rw [List.getElem?_map, List.getElem?_map, List.getElem?_modify]
    by_cases hij : i = j <;> simp [hij, Function.comp_def]
  index_eq _ := rfl

/-- Settling changes no version. -/
theorem version_settle (d : Dictionary) : d.settle.version = d.version := by
  unfold settle
  split <;> rfl

/-- Every action makes history. -/
theorem later_act (d : Dictionary) (a : Action) : d.Later (d.act a).2 := by
  cases a with
  | set k v =>
    change d.Later (d.put k v).2
    unfold put
    split
    · exact later_overwriteAt d _ v
    · exact later_of_lt (Nat.lt_succ_self _)
  | remove k wanted =>
    simp only [act, remove?]
    cases d.index[k]? with
    | none => exact Later.refl d
    | some i =>
      apply later_of_lt
      change d.version < (d.kill k i).settle.version
      rw [version_settle]
      exact Nat.lt_succ_self _
  | overwrite k v =>
    change d.Later (d.overwrite k v)
    unfold overwrite
    split
    · exact later_overwriteAt d _ v
    · exact Later.refl d
  | clear => exact later_of_lt (Nat.lt_succ_self _)
  | reserve room => exact Later.refl d
  | takeValues out => exact later_of_lt (Nat.lt_succ_self _)

end Shape

section WellFormed

variable {d : Dictionary}

private theorem wf_overwriteAt (h : d.WF) (i : Nat) (k : Key) (v w : Value)
    (hi : d.slots[i]? = some ⟨k, w, true⟩) : (d.overwriteAt i v).WF := by
  refine ⟨coherent_overwriteAt d h.toCoherent i k v w hi, ?_⟩
  rw [tombstones, overwriteAt, Array.size_modify]
  exact h.tombstones_le

/-- Writing an entry keeps a dictionary well formed. -/
theorem WF.put (h : d.WF) (k : Key) (v : Value) : (d.put k v).2.WF := by
  rcases h.index_cases k with ⟨hi, -⟩ | ⟨i, w, hi, hs, -⟩
  · simp only [Dictionary.put, hi]
    refine ⟨coherent_append d h.toCoherent k v hi, ?_⟩
    have ht := h.tombstones_le
    rw [tombstones] at ht ⊢
    simp only [append, Array.size_push]
    omega
  · simp only [Dictionary.put, hi]
    exact wf_overwriteAt h i k v w hs

private theorem WF.overwrite (h : d.WF) (k : Key) (v : Value) : (d.overwrite k v).WF := by
  rcases h.index_cases k with ⟨hi, -⟩ | ⟨i, w, hi, hs, -⟩
  · simp only [Dictionary.overwrite, hi]
    exact h
  · simp only [Dictionary.overwrite, hi]
    exact wf_overwriteAt h i k v w hs

private theorem WF.remove? (h : d.WF) (k : Key) (v : Value) (rest : Dictionary)
    (hr : d.remove? k = some (v, rest)) : rest.WF := by
  rcases h.index_cases k with ⟨hi, -⟩ | ⟨i, w, hi, hs, -⟩
  · simp [Dictionary.remove?, hi] at hr
  · simp only [Dictionary.remove?, hi, Option.some.injEq, Prod.mk.injEq] at hr
    rw [← hr.2]
    exact wf_settle _ (coherent_kill d h.toCoherent i k w hs)

/-- Every action keeps a dictionary well formed. -/
theorem WF.act (h : d.WF) (a : Action) : (d.act a).2.WF := by
  cases a with
  | set k v => exact h.put k v
  | remove k wanted =>
    simp only [Dictionary.act]
    split
    · next v rest hr => exact h.remove? k v rest hr
    · exact h
  | overwrite k v => exact h.overwrite k v
  | clear => exact wf_clear d
  | reserve room => exact h
  | takeValues out => exact wf_clear d

end WellFormed
end Scriptlet.Dictionary
