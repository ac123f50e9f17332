import Scriptlet.Proofs.Dictionary.History

/-!
# What the version of a dictionary tells

The version counts the changes of the key set: a new key, a key removed, all entries dropped at
once. So two moments of one history have the same version exactly if there was no such change
between them, and then slots and index are the same but for the values in live slots.
-/

namespace Scriptlet.Dictionary

/-- A new key counts as one change of the key set. -/
theorem version_set_of_new {d : Dictionary} {k : Key} (hk : d.contains k = false) (v : Value) :
    (d.set k v).version = d.version + 1 := by
  rw [contains, Std.TreeMap.contains_eq_isSome_getElem?] at hk
  cases hi : d.index[k]? with
  | none =>
    rw [set, put, hi]
    rfl
  | some i =>
    rw [hi] at hk
    cases hk

/-- Writing over the value of a key does not count. -/
theorem version_set_of_contains {d : Dictionary} {k : Key} (hk : d.contains k = true)
    (v : Value) : (d.set k v).version = d.version := by
  rw [contains, Std.TreeMap.contains_eq_isSome_getElem?] at hk
  obtain ⟨i, hi⟩ := Option.isSome_iff_exists.mp hk
  rw [set, put, hi]
  rfl

/-- Removing a key counts as one change of the key set. -/
theorem version_of_remove? {d rest : Dictionary} {k : Key} {v : Value}
    (found : d.remove? k = some (v, rest)) : rest.version = d.version + 1 := by
  unfold remove? at found
  split at found
  · cases found
  · cases found
    rw [version_settle]
    rfl

/-- Writing over a value never counts. -/
theorem version_overwrite (d : Dictionary) (k : Key) (v : Value) :
    (d.overwrite k v).version = d.version := by
  unfold overwrite
  split
  · rfl
  · rfl

variable {d e : Dictionary}

private theorem Coherent.remove?_eq_none_iff (h : d.Coherent) (k : Key) :
    d.remove? k = none ↔ k ∉ d.keys := by
  rcases h.index_cases k with ⟨hi, hk⟩ | ⟨i, w, hi, -, hm⟩
  · simp [remove?, hi, hk]
  · have hk : k ∈ d.keys := List.mem_map.mpr ⟨(k, w), hm, rfl⟩
    simp [remove?, hi, hk]

section Counting

/-- An action changes the key set of the dictionary that it meets: it writes a key that is absent,
removes one that is present, or drops all entries, even if there are none. -/
def ChangesKeys (d : Dictionary) : Action → Prop
  | .set k _ => k ∉ d.keys
  | .remove k _ => k ∈ d.keys
  | .overwrite _ _ => False
  | .clear => True
  | .reserve _ => False
  | .takeValues _ => True

instance (d : Dictionary) : DecidablePred d.ChangesKeys
  | .set k _ => inferInstanceAs (Decidable (k ∉ d.keys))
  | .remove k _ => inferInstanceAs (Decidable (k ∈ d.keys))
  | .overwrite _ _ => inferInstanceAs (Decidable False)
  | .clear => inferInstanceAs (Decidable True)
  | .reserve _ => inferInstanceAs (Decidable False)
  | .takeValues _ => inferInstanceAs (Decidable True)

/-- Each action raises the version by one if it changes the key set, and keeps it otherwise. -/
theorem Coherent.version_act (h : d.Coherent) (a : Action) :
    (d.act a).2.version = d.version + if d.ChangesKeys a then 1 else 0 := by
  cases a with
  | set k v =>
    change (d.set k v).version = d.version + if k ∉ d.keys then 1 else 0
    by_cases hk : k ∈ d.keys
    · rw [if_neg (not_not_intro hk)]
      exact version_set_of_contains ((h.contains_iff k).mpr hk) v
    · rw [if_pos hk]
      exact version_set_of_new (Bool.eq_false_iff.mpr (mt (h.contains_iff k).mp hk)) v
  | remove k wanted =>
    change (d.act (.remove k wanted)).2.version = d.version + if k ∈ d.keys then 1 else 0
    cases hr : d.remove? k with
    | none =>
      rw [if_neg ((h.remove?_eq_none_iff k).mp hr)]
      simp only [act, hr, Nat.add_zero]
    | some found =>
      have hk : k ∈ d.keys := by
        apply Decidable.byContradiction
        intro hk
        rw [(h.remove?_eq_none_iff k).mpr hk] at hr
        cases hr
      rw [if_pos hk]
      simp only [act, hr]
      exact version_of_remove? hr
  | overwrite k v => exact version_overwrite d k v
  | clear => rfl
  | reserve room => rfl
  | takeValues out => rfl

/-- The dictionary after some actions, whatever they answer. A search changes nothing, so it is
none of them; a write to a place that a search has found is the action `overwrite`. -/
def actAll (d : Dictionary) (actions : List Action) : Dictionary :=
  actions.foldl (fun d a ↦ (d.act a).2) d

/-- The number of actions that change the key set of the dictionary that they meet. -/
def keyChanges (d : Dictionary) : List Action → Nat
  | [] => 0
  | a :: rest => (if d.ChangesKeys a then 1 else 0) + (d.act a).2.keyChanges rest

/-- Actions keep a dictionary well formed. -/
theorem WF.actAll (h : d.WF) (actions : List Action) : (d.actAll actions).WF := by
  induction actions generalizing d with
  | nil => exact h
  | cons a rest ih => exact ih (h.act a)

/-- Actions make history. -/
theorem later_actAll (d : Dictionary) (actions : List Action) : d.Later (d.actAll actions) := by
  induction actions generalizing d with
  | nil => exact .refl d
  | cons a rest ih => exact (later_act d a).trans (ih (d.act a).2)

/-- The version counts the changes of the key set. -/
theorem WF.version_actAll (h : d.WF) (actions : List Action) :
    (d.actAll actions).version = d.version + d.keyChanges actions := by
  induction actions generalizing d with
  | nil => rfl
  | cons a rest ih =>
    have hstep := h.version_act a
    have hrest := ih (h.act a)
    change ((d.act a).2.actAll rest).version = d.version + d.keyChanges (a :: rest)
    rw [hrest, hstep, keyChanges, Nat.add_assoc]

/-- Nothing is counted exactly if no action changes the key set of the dictionary that it
meets. -/
theorem keyChanges_eq_zero_iff (d : Dictionary) (actions : List Action) :
    d.keyChanges actions = 0 ↔
      ∀ earlier a later, actions = earlier ++ a :: later → ¬ (d.actAll earlier).ChangesKeys a := by
  induction actions generalizing d with
  | nil => simp [keyChanges]
  | cons b rest ih =>
    rw [keyChanges, Nat.add_eq_zero_iff, ih]
    constructor
    · rintro ⟨hb, hrest⟩ earlier a later hsplit
      cases earlier with
      | nil =>
        obtain ⟨rfl, -⟩ := List.cons.inj hsplit
        intro (hc : d.ChangesKeys b)
        rw [if_pos hc] at hb
        cases hb
      | cons c earlier =>
        obtain ⟨rfl, htail⟩ := List.cons.inj hsplit
        exact hrest earlier a later htail
    · intro hall
      refine ⟨if_neg (hall [] b rest rfl), ?_⟩
      intro earlier a later hsplit
      exact hall (b :: earlier) a later (congrArg (b :: ·) hsplit)

end Counting

section Sameness

/-- Two dictionaries are the same but for the values in live slots. -/
structure SameButValues (d e : Dictionary) : Prop where
  length : e.slots.size = d.slots.size
  slot : ∀ (i : Nat) (s t : Slot), d.slots[i]? = some s → e.slots[i]? = some t →
    t.key = s.key ∧ t.live = s.live ∧ (s.live = false → t.value = s.value)
  index : e.index = d.index
  size : e.size = d.size

/-- As long as the version stays, a history changes values in live slots only. -/
theorem Later.sameButValues (hl : d.Later e) (hd : d.Coherent) (he : e.Coherent)
    (hv : e.version = d.version) : d.SameButValues e where
  length := by
    have hlen := congrArg List.length (hl.shape_eq hv)
    simpa [shape] using hlen
  slot i s t hs ht := by
    have hst : (t.key, t.live) = (s.key, s.live) := by
      have hshape := congrArg (·[i]?) (hl.shape_eq hv)
      simp only [getElem?_shape, hs, ht, Option.map_some] at hshape
      exact Option.some.inj hshape
    obtain ⟨hkey, hlive⟩ := Prod.mk.inj hst
    refine ⟨hkey, hlive, fun hdead ↦ ?_⟩
    -- A dead slot holds nothing, before and after.
    rw [hd.dead_none s (Array.mem_of_getElem? hs) hdead,
      he.dead_none t (Array.mem_of_getElem? ht) (hlive.trans hdead)]
  index := hl.index_eq hv
  size := by
    have hkeys : e.keys = d.keys := by rw [keys_eq_shape, keys_eq_shape, hl.shape_eq hv]
    have hlen := congrArg List.length hkeys
    rw [keys, keys, List.length_map, List.length_map] at hlen
    rw [hd.size_eq, he.size_eq, hlen]

/-- A place that a search has found is as good as a new search while the version stays. -/
theorem SameButValues.overwriteAt_eq (h : d.SameButValues e) {k : Key} {i : Nat}
    (hi : d.index[k]? = some i) (v : Value) : e.overwriteAt i v = e.overwrite k v := by
  rw [overwrite, h.index, hi]

/-- At two moments of a history the versions are the same exactly if no action between them changed
the key set: no absent key was written, no present one removed, and the entries were not dropped
all at once. The version never falls, and where it is the same, the dictionaries are the same but
for the values in live slots. -/
theorem version_tells_changes (before between : List Action) :
    let d := ({} : Dictionary).actAll before
    let e := d.actAll between
    (e.version = d.version ↔ ∀ earlier a later, between = earlier ++ a :: later →
        ¬ (d.actAll earlier).ChangesKeys a) ∧
      d.version ≤ e.version ∧ (e.version = d.version → d.SameButValues e) := by
  intro d e
  have hd : d.WF := wf_empty.actAll before
  have he : e.WF := hd.actAll between
  have hl : d.Later e := later_actAll d between
  refine ⟨?_, hl.version_le, hl.sameButValues hd.toCoherent he.toCoherent⟩
  rw [← keyChanges_eq_zero_iff, hd.version_actAll between]
  exact Nat.add_eq_left

/-- A dictionary with a dead slot, in which a value is overwritten twice, room is made, and a key
that was removed is removed once more. -/
theorem version_tells_changes_overwritten :
    let d := ({} : Dictionary).actAll
      [.set (.int 1) .none, .set (.int 2) .none, .remove (.int 1) true]
    let e := d.actAll [.overwrite (.int 2) (.bool true), .reserve 8, .set (.int 2) (.int 5),
      .remove (.int 1) false]
    e.version = d.version ∧ d.SameButValues e := by
  intro d e
  have hv : e.version = d.version := rfl
  exact ⟨hv, (version_tells_changes _ _).2.2 hv⟩

end Sameness
end Scriptlet.Dictionary
