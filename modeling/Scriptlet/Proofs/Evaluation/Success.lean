import Scriptlet.Evaluation.Interpreter

/-!
# When computations succeed

A computation that is put together from others succeeds exactly when they do, one after the
other. Each lemma here says for one way of putting together, or for one primitive step, which
result and which machine it ends with.
-/

namespace Scriptlet.Exec

variable [Host] {α β : Type}

section Steps

/-- A sequence succeeds when both parts do. -/
theorem bind_eq_ok_iff (x : Exec α) (f : α → Exec β) (m m' : Machine) (b : β) :
    (x >>= f) m = .ok b m' ↔ ∃ a m₁, x m = .ok a m₁ ∧ f a m₁ = .ok b m' := by
  simp only [bind, EStateM.bind]
  cases h : x m with
  | ok a m₁ =>
    constructor
    · intro hf
      exact ⟨a, m₁, rfl, hf⟩
    · rintro ⟨a', m₁', he, hf⟩
      cases he
      exact hf
  | error stop m₁ => simp

/-- After a success the second part of a sequence goes on. -/
theorem bind_of_ok {x : Exec α} {m m₁ : Machine} {a : α} (hx : x m = .ok a m₁)
    (f : α → Exec β) : (x >>= f) m = f a m₁ := by
  simp only [bind, EStateM.bind, hx]

/-- A result leaves the machine alone. -/
theorem pure_run (a : α) (m : Machine) : (pure a : Exec α) m = .ok a m := rfl

/-- A result is there at once. -/
theorem pure_eq_ok_iff (a b : α) (m m' : Machine) :
    (pure a : Exec α) m = .ok b m' ↔ b = a ∧ m' = m := by
  simp [pure, EStateM.pure, eq_comm]

/-- Stopping is no success. -/
theorem throw_ne_ok (stop : Stop) (m m' : Machine) (a : α) :
    (throw stop : Exec α) m ≠ .ok a m' := by
  intro h
  cases h

/-- An error is no success. -/
theorem raise_ne_ok (cause : Cause) (location : Location) (m m' : Machine) (a : α) :
    (raise cause location : Exec α) m ≠ .ok a m' := throw_ne_ok _ m m' a

/-- A pure operation succeeds with its result. -/
theorem lift_eq_ok_iff (location : Location) (x : Except Cause α) (m m' : Machine) (a : α) :
    lift location x m = .ok a m' ↔ x = .ok a ∧ m' = m := by
  cases x with
  | ok b =>
    rw [lift, pure_eq_ok_iff]
    simp [eq_comm]
  | error cause => simp [lift, raise_ne_ok]

/-- A pure operation that succeeds leaves the machine alone. -/
theorem lift_of_ok {x : Except Cause α} {a : α} (hx : x = .ok a) (location : Location)
    (m : Machine) : lift location x m = .ok a m := by
  rw [hx]
  rfl

/-- What is read off the heap. -/
theorem inspect_run (f : Heap → α) (m : Machine) : inspect f m = .ok (f m.heap) m := rfl

/-- Reading the heap always succeeds. -/
theorem inspect_eq_ok_iff (f : Heap → α) (m m' : Machine) (a : α) :
    inspect f m = .ok a m' ↔ a = f m.heap ∧ m' = m := by
  simp [inspect, eq_comm]

/-- A variable has a value when it is bound. -/
theorem lookup_eq_ok_iff (scope : ScopeId) (name : Bytes) (location : Location)
    (m m' : Machine) (v : Value) :
    lookup scope name location m = .ok v m' ↔ m.scopes.lookup? scope name = some v ∧ m' = m := by
  rw [lookup]
  cases m.scopes.lookup? scope name <;> simp [eq_comm]

/-- Binding a name always succeeds. -/
theorem declare_eq_ok_iff (scope : ScopeId) (name : Bytes) (v : Value) (m m' : Machine)
    (u : Unit) :
    declare scope name v m = .ok u m' ↔ m' = { m with scopes := m.scopes.bind scope name v } := by
  simp [declare, eq_comm]

/-- Binding names always succeeds. -/
theorem bindAll_eq_ok_iff (scope : ScopeId) (bindings : List (Bytes × Value)) (m m' : Machine)
    (u : Unit) :
    bindAll scope bindings m = .ok u m' ↔
      m' = { m with scopes := m.scopes.bindAll scope bindings } := by
  simp [bindAll, eq_comm]

/-- Giving a variable a value always succeeds. -/
theorem assign_eq_ok_iff (scope : ScopeId) (name : Bytes) (v : Value) (m m' : Machine)
    (u : Unit) :
    assign scope name v m = .ok u m' ↔
      m' = { m with scopes := m.scopes.assign scope name v } := by
  simp [assign, eq_comm]

/-- Changing the heap always succeeds. -/
theorem modifyHeap_eq_ok_iff (f : Heap → Heap) (m m' : Machine) (u : Unit) :
    modifyHeap f m = .ok u m' ↔ m' = { m with heap := f m.heap } := by
  simp [modifyHeap, eq_comm]

/-- A truth value is a condition. -/
theorem condition_bool (location : Location) (b : Bool) (m : Machine) :
    condition location (.bool b) m = .ok b m := rfl

/-- Only truth values are conditions. -/
theorem condition_eq_ok_iff (location : Location) (v : Value) (m m' : Machine) (b : Bool) :
    condition location v m = .ok b m' ↔ v = .bool b ∧ m' = m := by
  cases v with
  | bool c =>
    rw [condition, pure_eq_ok_iff]
    simp [eq_comm]
  | _ => simp [condition, raise_ne_ok]

end Steps

section Nesting

private theorem andThenAlways_eq_ok_iff (action : Exec α) (f : Machine → Machine) (m m' : Machine)
    (a : α) : andThenAlways action f m = .ok a m' ↔ ∃ m₁, action m = .ok a m₁ ∧ m' = f m₁ := by
  rw [andThenAlways]
  cases action m with
  | ok b m₁ =>
    constructor
    · intro h
      cases h
      exact ⟨m₁, rfl, rfl⟩
    · rintro ⟨m₂, he, rfl⟩
      cases he
      rfl
  | error stop m₁ => simp

/-- A computation in a scope of its own succeeds when it does there. -/
theorem withScope_eq_ok_iff (parent : ScopeId) (action : ScopeId → Exec α) (m m' : Machine)
    (a : α) :
    withScope parent action m = .ok a m' ↔
      ∃ m₁, action (m.scopes.enter (some parent)).1
          { m with scopes := (m.scopes.enter (some parent)).2 } = .ok a m₁ ∧
        m' = { m₁ with scopes := m₁.scopes.leave (m.scopes.enter (some parent)).1 } :=
  andThenAlways_eq_ok_iff _ _ _ _ _

/-- A call succeeds when there is room for it and its function succeeds. -/
theorem withFrame_eq_ok_iff (ctx : Context) (callee : Bytes) (location : Location)
    (action : Exec α) (m m' : Machine) (a : α) :
    withFrame ctx callee location action m = .ok a m' ↔
      m.depth < ctx.maxDepth ∧ ∃ m₁, action { m with depth := m.depth + 1 } = .ok a m₁ ∧
        m' = { m₁ with depth := m₁.depth - 1 } := by
  rw [withFrame]
  by_cases hd : ctx.maxDepth ≤ m.depth
  · simp [hd, raise_ne_ok, Nat.not_lt.mpr hd]
  · simp [hd, Nat.lt_of_not_le hd, andThenAlways_eq_ok_iff]

/-- The elements of an empty list are computed at once. -/
theorem mapM_nil_eq_ok_iff (f : α → Exec β) (m m' : Machine) (bs : List β) :
    [].mapM f m = .ok bs m' ↔ bs = [] ∧ m' = m := by
  rw [List.mapM_nil, pure_eq_ok_iff]

/-- The elements of a list are computed from left to right. -/
theorem mapM_cons_eq_ok_iff (f : α → Exec β) (a : α) (as : List α) (m m' : Machine)
    (bs : List β) :
    (a :: as).mapM f m = .ok bs m' ↔
      ∃ b m₁ rest, f a m = .ok b m₁ ∧ as.mapM f m₁ = .ok rest m' ∧ bs = b :: rest := by
  rw [List.mapM_cons]
  simp only [bind_eq_ok_iff, pure_eq_ok_iff]
  constructor
  · rintro ⟨b, m₁, hb, rest, m₂, hrest, rfl, rfl⟩
    exact ⟨b, m₁, rest, hb, hrest, rfl⟩
  · rintro ⟨b, m₁, rest, hb, hrest, rfl⟩
    exact ⟨b, m₁, hb, rest, m', hrest, rfl, rfl⟩

end Nesting

end Scriptlet.Exec
