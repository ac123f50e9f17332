import Scriptlet.Scope

/-!
# Frames of scopes

A frame says how far a run may have changed the scopes that were there before it: which of
them may hold other values, and which may bind names that they did not bind. Nothing takes a
scope away from under a running program, moves it to another parent, or unbinds a name.
-/

namespace Scriptlet.Scopes

/-- From `s` to `t` no scope but the touched ones has changed its bindings, no name has been
lost, and no names but the gained ones are new. -/
structure Frame (touched : ScopeId → Prop) (gained : ScopeId → Bytes → Prop) (s t : Scopes) :
    Prop where
  size_eq : t.all.size = s.all.size
  parent_eq : ∀ i, (t.scope i).parent = (s.scope i).parent
  bindings_eq : ∀ i, ¬ touched i → (t.scope i).bindings = (s.scope i).bindings
  kept : ∀ i name, s.binds i name = true → t.binds i name = true
  gains : ∀ i name, t.binds i name = true → s.binds i name = true ∨ gained i name

section Composition

variable {touched touched' : ScopeId → Prop} {gained gained' : ScopeId → Bytes → Prop}
  {s t u : Scopes}

/-- What has not changed is within every frame. -/
theorem Frame.refl (s : Scopes) : Frame touched gained s s :=
  ⟨rfl, fun _ ↦ rfl, fun _ _ ↦ rfl, fun _ _ h ↦ h, fun _ _ h ↦ Or.inl h⟩

/-- Frames can be joined. -/
theorem Frame.trans (hst : Frame touched gained s t) (htu : Frame touched gained t u) :
    Frame touched gained s u where
  size_eq := htu.size_eq.trans hst.size_eq
  parent_eq i := (htu.parent_eq i).trans (hst.parent_eq i)
  bindings_eq i hi := (htu.bindings_eq i hi).trans (hst.bindings_eq i hi)
  kept i name h := htu.kept i name (hst.kept i name h)
  gains i name h := by
    rcases htu.gains i name h with ht | hg
    · exact hst.gains i name ht
    · exact Or.inr hg

/-- A frame allows what a smaller one allows. -/
theorem Frame.mono (h : Frame touched gained s t) (ht : ∀ i, touched i → touched' i)
    (hg : ∀ i name, gained i name → gained' i name) : Frame touched' gained' s t where
  size_eq := h.size_eq
  parent_eq := h.parent_eq
  bindings_eq i hi := h.bindings_eq i fun hti ↦ hi (ht i hti)
  kept := h.kept
  gains i name hb := (h.gains i name hb).imp_right (hg i name)

/-- If no name is gained, the same names are bound as before. -/
theorem Frame.binds_eq (h : Frame touched (fun _ _ ↦ False) s t) (i : ScopeId) (name : Bytes) :
    t.binds i name = s.binds i name := by
  rw [Bool.eq_iff_iff]
  constructor
  · intro hb
    exact (h.gains i name hb).resolve_right id
  · exact h.kept i name

end Composition

section Chain

/-- The way outwards depends on the parents on it only. -/
theorem chain_congr (s t : Scopes) (i : ScopeId)
    (h : ∀ j : ScopeId, j.index ≤ i.index → (t.scope j).parent = (s.scope j).parent) :
    t.chain i = s.chain i := by
  rw [chain, chain, h i (Nat.le_refl _)]
  cases (s.scope i).parent with
  | none => rfl
  | some p =>
    by_cases hp : p.index < i.index
    · simp only [hp, if_true]
      rw [chain_congr s t p fun j hj ↦ h j (by omega)]
    · simp only [hp, if_false]
termination_by i.index

/-- Within a frame every way outwards stays the same. -/
theorem Frame.chain_eq {touched : ScopeId → Prop} {gained : ScopeId → Bytes → Prop}
    {s t : Scopes} (h : Frame touched gained s t) (i : ScopeId) : t.chain i = s.chain i :=
  chain_congr s t i fun j _ ↦ h.parent_eq j

/-- Nothing is around the outermost scope. -/
theorem mem_chain_zero (s : Scopes) (i : ScopeId) (h : i ∈ s.chain ⟨0⟩) : i = ⟨0⟩ := by
  rw [chain] at h
  cases hp : (s.scope ⟨0⟩).parent with
  | none => simpa [hp] using h
  | some p => simpa [hp] using h

private theorem owner?_mem_chain (s : Scopes) (i j : ScopeId) (name : Bytes)
    (h : s.owner? i name = some j) : j ∈ s.chain i ∧ s.binds j name = true :=
  ⟨List.mem_of_find?_eq_some h, List.find?_some (p := (s.binds · name)) h⟩

private theorem owner?_eq_none (s : Scopes) (i : ScopeId) (name : Bytes)
    (h : s.owner? i name = none) : s.has i name = false := by
  rw [has, List.any_eq_false]
  exact List.find?_eq_none.mp h

/-- A name that has a value is bound on the way outwards. -/
theorem has_of_lookup? (s : Scopes) (i : ScopeId) (name : Bytes) (v : Value)
    (h : s.lookup? i name = some v) : s.has i name = true := by
  obtain ⟨j, hj, hv⟩ := List.exists_of_findSome?_eq_some h
  rw [has, List.any_eq_true]
  exact ⟨j, hj, by rw [binds_eq_isSome, hv, Option.isSome_some]⟩

end Chain

section Binding

private theorem scope_bind (s : Scopes) (i j : ScopeId) (name : Bytes) (v : Value) :
    (s.bind i name v).scope j = s.scope j ∨
      j = i ∧ (s.bind i name v).scope j =
        { s.scope i with bindings := (s.scope i).bindings.insert name v } := by
  by_cases hj : j = i
  · subst hj
    by_cases hs : j.index < s.all.size
    · right
      simp [bind, scope, Array.getD_eq_getD_getElem?, Array.getElem_modify, hs]
    · left
      have hn : s.all[j.index]? = none := Array.getElem?_eq_none_iff.mpr (by omega)
      simp [bind, scope, Array.getD_eq_getD_getElem?, Array.getElem?_modify, hn]
  · left
    have hi : i.index ≠ j.index := fun he ↦ hj (by cases i; cases j; cases he; rfl)
    simp [bind, scope, Array.getD_eq_getD_getElem?, Array.getElem?_modify, hi]

/-- Binding a name touches one scope and gains that name at most. -/
theorem frame_bind (s : Scopes) (i : ScopeId) (name : Bytes) (v : Value) :
    Frame (· = i) (fun j n ↦ j = i ∧ n = name) s (s.bind i name v) where
  size_eq := by rw [bind, Array.size_modify]
  parent_eq j := by
    rcases scope_bind s i j name v with h | ⟨rfl, h⟩
    · rw [h]
    · rw [h]
  bindings_eq j hj := by
    rcases scope_bind s i j name v with h | ⟨rfl, -⟩
    · rw [h]
    · exact absurd rfl hj
  kept j n hb := by
    rcases scope_bind s i j name v with h | ⟨rfl, h⟩
    · rw [binds, h]
      exact hb
    · rw [binds] at hb ⊢
      simp [h, hb]
  gains j n hb := by
    rcases scope_bind s i j name v with h | ⟨rfl, h⟩
    · left
      rw [binds, h] at hb
      exact hb
    · rw [binds, h, Std.TreeMap.contains_insert, Bool.or_eq_true] at hb
      rcases hb with hn | hb
      · have he : name = n := by simpa using hn
        exact Or.inr ⟨rfl, he.symm⟩
      · exact Or.inl hb

/-- Binding names one after the other touches one scope. -/
theorem frame_bindAll (s : Scopes) (i : ScopeId) (bindings : List (Bytes × Value)) :
    Frame (· = i) (fun j _ ↦ j = i) s (s.bindAll i bindings) := by
  induction bindings generalizing s with
  | nil => exact Frame.refl s
  | cons b bindings ih =>
    have hb := (frame_bind s i b.1 b.2).mono (fun _ h ↦ h) fun _ _ h ↦ h.1
    exact hb.trans (ih (s.bind i b.1 b.2))

/-- An assignment touches a scope on the way outwards; it gains a name only where it stands,
and only one that was bound nowhere on that way. -/
theorem frame_assign (s : Scopes) (i : ScopeId) (name : Bytes) (v : Value) :
    Frame (· ∈ s.chain i) (fun j n ↦ j = i ∧ n = name ∧ s.has i name = false) s
      (s.assign i name v) := by
  rw [assign]
  cases ho : s.owner? i name with
  | none =>
    refine (frame_bind s i name v).mono ?_ ?_
    · rintro j rfl
      exact mem_chain_self s j
    · rintro j n ⟨rfl, rfl⟩
      exact ⟨rfl, rfl, owner?_eq_none s j n ho⟩
  | some o =>
    obtain ⟨hmem, hbinds⟩ := owner?_mem_chain s i o name ho
    have hb := frame_bind s o name v
    refine { hb with bindings_eq := ?_, gains := ?_ }
    · intro j hj
      exact hb.bindings_eq j fun he ↦ hj (he ▸ hmem)
    · intro j n hn
      rcases hb.gains j n hn with h | ⟨rfl, rfl⟩
      · exact Or.inl h
      · exact Or.inl hbinds

end Binding

section Nesting

variable {touched : ScopeId → Prop} {gained : ScopeId → Bytes → Prop} {s t : Scopes}

private theorem scope_enter (s : Scopes) (parent : Option ScopeId) (j : ScopeId)
    (hj : j.index < s.all.size) : (s.enter parent).2.scope j = s.scope j := by
  simp [enter, scope, Array.getD_eq_getD_getElem?, Array.getElem?_push, Nat.ne_of_lt hj]

private theorem scope_enter_self (s : Scopes) (parent : Option ScopeId) :
    (s.enter parent).2.scope (s.enter parent).1 = { parent } := by
  simp [enter, scope, Array.getD_eq_getD_getElem?]

/-- The way outwards from a new scope leads to its parent. -/
theorem mem_chain_enter (s : Scopes) (parent j : ScopeId)
    (hj : j ∈ (s.enter (some parent)).2.chain (s.enter (some parent)).1) :
    j = (s.enter (some parent)).1 ∨ j ∈ s.chain parent := by
  rw [chain, scope_enter_self] at hj
  rcases List.mem_cons.mp hj with rfl | hj
  · exact Or.inl rfl
  · right
    simp only at hj
    split at hj
    · next hp =>
      rw [chain_congr s _ parent] at hj
      · exact hj
      · intro k hk
        rw [scope_enter s (some parent) k (Nat.lt_of_le_of_lt hk hp)]
    · cases hj

private theorem scope_leave (s : Scopes) (i j : ScopeId) (hj : j.index < i.index) :
    (s.leave i).scope j = s.scope j := by
  rw [leave, scope, scope, Array.getD_eq_getD_getElem?, Array.getD_eq_getD_getElem?,
    Array.take_eq_extract, Array.getElem?_extract]
  by_cases hs : j.index < s.all.size
  · rw [if_pos (by omega), Nat.zero_add]
  · rw [if_neg (by omega), Array.getElem?_eq_none (by omega)]

/-- What happened inside a scope of its own has not touched that scope once it is left, and
has gained nothing in it. -/
theorem Frame.leave (parent : Option ScopeId)
    (h : Frame touched gained (s.enter parent).2 t) :
    Frame (fun j ↦ touched j ∧ j ≠ (s.enter parent).1)
      (fun j n ↦ gained j n ∧ j ≠ (s.enter parent).1) s (t.leave (s.enter parent).1) := by
  have hinner : (s.enter parent).1.index = s.all.size := rfl
  have hsize : t.all.size = s.all.size + 1 := by rw [h.size_eq, enter, Array.size_push]
  have hlsize : (t.leave (s.enter parent).1).all.size = s.all.size := by
    rw [Scopes.leave, Array.take_eq_extract, Array.size_extract, hinner]
    omega
  -- Beyond the old scopes there is nothing, neither before nor after.
  have hout (j : ScopeId) (hj : ¬ j.index < s.all.size) :
      (t.leave (s.enter parent).1).scope j = s.scope j := by
    rw [scope, scope, Array.getD_eq_getD_getElem?, Array.getD_eq_getD_getElem?,
      Array.getElem?_eq_none (by omega), Array.getElem?_eq_none (by omega)]
  have hin (j : ScopeId) (hj : j.index < s.all.size) :
      (t.leave (s.enter parent).1).scope j = t.scope j ∧
        (s.enter parent).2.scope j = s.scope j ∧ j ≠ (s.enter parent).1 :=
    ⟨scope_leave t _ j hj, scope_enter s parent j hj, fun he ↦ by rw [he, hinner] at hj; omega⟩
  refine ⟨hlsize, ?_, ?_, ?_, ?_⟩
  · intro j
    by_cases hj : j.index < s.all.size
    · obtain ⟨hl, he, -⟩ := hin j hj
      rw [hl, h.parent_eq, he]
    · rw [hout j hj]
  · intro j htj
    by_cases hj : j.index < s.all.size
    · obtain ⟨hl, he, hne⟩ := hin j hj
      rw [hl, h.bindings_eq j fun ht ↦ htj ⟨ht, hne⟩, he]
    · rw [hout j hj]
  · intro j n hb
    by_cases hj : j.index < s.all.size
    · obtain ⟨hl, he, -⟩ := hin j hj
      rw [binds, ← he] at hb
      rw [binds, hl]
      exact h.kept j n hb
    · rw [binds, hout j hj]
      exact hb
  · intro j n hb
    by_cases hj : j.index < s.all.size
    · obtain ⟨hl, he, hne⟩ := hin j hj
      rw [binds, hl] at hb
      rw [binds, ← he]
      exact (h.gains j n hb).imp_right fun hg ↦ ⟨hg, hne⟩
    · rw [binds, hout j hj] at hb
      exact Or.inl hb

end Nesting

end Scriptlet.Scopes
