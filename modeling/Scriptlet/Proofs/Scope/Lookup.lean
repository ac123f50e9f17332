import Scriptlet.Proofs.Evaluation.Congruence
import Scriptlet.Proofs.Scope.Frame

/-!
# Lookups and writes

To ask whether a name is bound, which scope binds it and what it stands for is to go outwards
three times, and all three come to the nearest scope that binds the name. A write changes one
binding of one scope. It is read from where the way outwards comes to that scope before it comes to
another binding of the name, and everything else is read as before.
-/

namespace Scriptlet

namespace Scopes

/-- The scope around a scope, which was opened before it. -/
def parent? (s : Scopes) (i : ScopeId) : Option ScopeId :=
  (s.scope i).parent.filter (·.index < i.index)

/-- From `i` the way outwards leads to `o`, and no scope before `o` binds the name. -/
inductive Sees (s : Scopes) (name : Bytes) (o : ScopeId) : ScopeId → Prop where
  | here : Sees s name o o
  | around {i p : ScopeId} (unbound : s.binds i name = false) (parent : s.parent? i = some p)
      (onward : Sees s name o p) : Sees s name o i

/-- From `s` to `t` one name of one scope has been given a value. -/
structure Rebinds (s : Scopes) (o : ScopeId) (name : Bytes) (v : Value) (t : Scopes) : Prop where
  size_eq : t.all.size = s.all.size
  parent_eq : ∀ i, t.parent? i = s.parent? i
  binding : t.binding? o name = some v
  /-- All other bindings, of this scope and of the others, are the old ones. -/
  others : ∀ i n, (i = o → n ≠ name) → t.binding? i n = s.binding? i n

section Walks

variable {s : Scopes} {i o : ScopeId} {name : Bytes}

/-- Outwards the numbers fall. -/
theorem parent?_lt {p : ScopeId} (h : s.parent? i = some p) : p.index < i.index := by
  simpa using (Option.filter_eq_some_iff.mp h).2

private theorem chain_eq (s : Scopes) (i : ScopeId) :
    s.chain i = i :: (s.parent? i).elim [] s.chain := by
  rw [chain, parent?]
  cases (s.scope i).parent with
  | none => rfl
  | some p => by_cases hp : p.index < i.index <;> simp [Option.filter_some, hp]

private theorem has_eq (s : Scopes) (i : ScopeId) (name : Bytes) :
    s.has i name = (s.binds i name || (s.parent? i).any (s.has · name)) := by
  rw [has, chain_eq, List.any_cons]
  cases s.parent? i <;> rfl

private theorem owner?_eq (s : Scopes) (i : ScopeId) (name : Bytes) :
    s.owner? i name =
      if s.binds i name then some i else (s.parent? i).bind (s.owner? · name) := by
  rw [owner?, chain_eq, List.find?_cons]
  cases s.binds i name <;> cases s.parent? i <;> rfl

private theorem lookup?_eq (s : Scopes) (i : ScopeId) (name : Bytes) :
    s.lookup? i name = (s.binding? i name).or ((s.parent? i).bind (s.lookup? · name)) := by
  rw [lookup?, chain_eq, List.findSome?_cons]
  cases s.binding? i name <;> cases s.parent? i <;> rfl

private theorem outwards (s : Scopes) {motive : ScopeId → Prop}
    (step : ∀ i, (∀ p, s.parent? i = some p → motive p) → motive i) (i : ScopeId) : motive i :=
  step i fun p hp ↦
    have := parent?_lt hp
    outwards s step p
termination_by i.index

/-- A name is bound on the way outwards exactly if it has an owner. -/
theorem has_eq_isSome_owner? (s : Scopes) (i : ScopeId) (name : Bytes) :
    s.has i name = (s.owner? i name).isSome := by
  induction i using s.outwards with
  | step i ih =>
    rw [has_eq, owner?_eq]
    cases hb : s.binds i name with
    | true => rfl
    | false =>
      cases hp : s.parent? i with
      | none => rfl
      | some p => exact ih p hp

/-- A name stands for what its owner binds it to. -/
theorem lookup?_eq_bind_owner? (s : Scopes) (i : ScopeId) (name : Bytes) :
    s.lookup? i name = (s.owner? i name).bind (s.binding? · name) := by
  induction i using s.outwards with
  | step i ih =>
    rw [lookup?_eq, owner?_eq, binds_eq_isSome]
    cases hb : s.binding? i name with
    | some v => exact hb.symm
    | none =>
      cases hp : s.parent? i with
      | none => rfl
      | some p => exact ih p hp

/-- The owner is the nearest scope that binds the name. -/
theorem owner?_eq_some_iff :
    s.owner? i name = some o ↔ s.Sees name o i ∧ s.binds o name = true := by
  constructor
  · intro h
    induction i using s.outwards with
    | step i ih =>
      rw [owner?_eq] at h
      split at h
      · next hb =>
        cases h
        exact ⟨.here, hb⟩
      · next hb =>
        obtain ⟨p, hp, ho⟩ := Option.bind_eq_some_iff.mp h
        obtain ⟨sees, binds⟩ := ih p hp ho
        exact ⟨.around (Bool.eq_false_iff.mpr hb) hp sees, binds⟩
  · rintro ⟨sees, binds⟩
    induction sees with
    | here => exact owner?_of_binds s o name binds
    | around unbound parent _ ih => rw [owner?_eq, unbound, parent]; exact ih

private theorem binding?_of_owner?_eq_none (h : s.owner? i name = none) (sees : s.Sees name o i) :
    s.binding? o name = none := by
  rw [← Option.not_isSome_iff_eq_none, ← binds_eq_isSome]
  intro binds
  rw [owner?_eq_some_iff.mpr ⟨sees, binds⟩] at h
  cases h

private theorem lt_size_of_binds (h : s.binds o name = true) : o.index < s.all.size := by
  apply Nat.lt_of_not_le
  intro hle
  have hscope : s.scope o = {} := by
    rw [scope, Array.getD_eq_getD_getElem?, Array.getElem?_eq_none hle]
    rfl
  simp [binds, hscope] at h

end Walks

section Writes

variable {s t : Scopes} {i o : ScopeId} {name n : Bytes} {v : Value}

/-- Binding a name in a scope gives it a value there. -/
theorem rebinds_bind (opened : i.index < s.all.size) (name : Bytes) (v : Value) :
    s.Rebinds i name v (s.bind i name v) := by
  have frame := frame_bind s i name v
  have hself : (s.bind i name v).scope i =
      { s.scope i with bindings := (s.scope i).bindings.insert name v } := by
    simp [bind, scope, Array.getD_eq_getD_getElem?, Array.getElem_modify, opened]
  refine ⟨frame.size_eq, fun j ↦ by rw [parent?, parent?, frame.parent_eq], ?_, fun j n hn ↦ ?_⟩
  · rw [binding?, hself, Std.TreeMap.getElem?_insert_self]
  · by_cases hj : j = i
    · subst hj
      have hne : ¬ compare name n = .eq := fun he ↦
        hn rfl (Std.LawfulEqCmp.compare_eq_iff_eq.mp he).symm
      rw [binding?, hself, Std.TreeMap.getElem?_insert, if_neg hne, ← binding?]
    · rw [binding?, frame.bindings_eq j hj, ← binding?]

private theorem Sees.index_le (h : s.Sees name o i) : o.index ≤ i.index := by
  induction h with
  | here => exact Nat.le_refl _
  | around _ parent _ ih => exact Nat.le_trans ih (Nat.le_of_lt (parent?_lt parent))

private theorem Sees.congr (h : s.Sees name o i) (parent_eq : ∀ j, t.parent? j = s.parent? j)
    (binds_eq : ∀ j, j ≠ o → t.binds j name = s.binds j name) : t.Sees name o i := by
  induction h with
  | here => exact .here
  | @around j p unbound parent onward ih =>
    have hne : j ≠ o := by
      rintro rfl
      exact absurd (parent?_lt parent) (Nat.not_lt.mpr onward.index_le)
    exact .around ((binds_eq j hne).trans unbound) ((parent_eq j).trans parent) ih

namespace Rebinds

private theorem binds_eq (h : s.Rebinds o name v t) (hn : i = o → n ≠ name) :
    t.binds i n = s.binds i n := by
  rw [binds_eq_isSome, binds_eq_isSome, h.others i n hn]

private theorem sees_iff (h : s.Rebinds o name v t) : t.Sees name o i ↔ s.Sees name o i := by
  have hbinds (j : ScopeId) (hj : j ≠ o) : t.binds j name = s.binds j name :=
    h.binds_eq fun he ↦ absurd he hj
  exact ⟨fun ht ↦ ht.congr (fun j ↦ (h.parent_eq j).symm) fun j hj ↦ (hbinds j hj).symm,
    fun hs ↦ hs.congr h.parent_eq hbinds⟩

private theorem owner?_eq_some_iff (h : s.Rebinds o name v t) :
    t.owner? i name = some o ↔ s.Sees name o i := by
  have hbinds : t.binds o name = true := by rw [binds_eq_isSome, h.binding, Option.isSome_some]
  rw [Scopes.owner?_eq_some_iff, h.sees_iff, and_iff_left hbinds]

private theorem owner?_eq (h : s.Rebinds o name v t) (hn : n = name → ¬ s.Sees name o i) :
    t.owner? i n = s.owner? i n := by
  induction i using s.outwards with
  | step i ih =>
    have hbinds : t.binds i n = s.binds i n := by
      refine h.binds_eq ?_
      rintro rfl rfl
      exact hn rfl .here
    rw [Scopes.owner?_eq, Scopes.owner?_eq, hbinds, h.parent_eq]
    cases hb : s.binds i n with
    | true => rfl
    | false =>
      cases hp : s.parent? i with
      | none => rfl
      | some p =>
        refine ih p hp ?_
        rintro rfl hs
        exact hn rfl (.around hb hp hs)

private theorem lookup?_of_owner? (h : s.Rebinds o name v t) (ho : t.owner? i name = some o) :
    t.lookup? i name = some v := by
  rw [lookup?_eq_bind_owner?, ho]
  exact h.binding

private theorem lookup?_eq (h : s.Rebinds o name v t) (hn : n = name → ¬ s.Sees name o i) :
    t.lookup? i n = s.lookup? i n := by
  rw [lookup?_eq_bind_owner?, lookup?_eq_bind_owner?, h.owner?_eq hn]
  cases ho : s.owner? i n with
  | none => rfl
  | some j =>
    refine h.others j n ?_
    rintro rfl rfl
    exact hn rfl (Scopes.owner?_eq_some_iff.mp ho).1

end Rebinds

/-- What a write to a name in the scope `o` comes to, between `s` and `t`. -/
structure Writes (s : Scopes) (o : ScopeId) (name : Bytes) (v : Value) (t : Scopes) : Prop
    extends s.Rebinds o name v t where
  /-- The scope is the owner where no nearer one binds the name. -/
  owner_iff : ∀ j, t.owner? j name = some o ↔ s.Sees name o j
  reads : ∀ j, t.owner? j name = some o → t.lookup? j name = some v
  elsewhere : ∀ j n, (n = name → t.owner? j name ≠ some o) →
    t.owner? j n = s.owner? j n ∧ t.lookup? j n = s.lookup? j n

/-- To give one name of one scope a value is to write to it. -/
theorem Rebinds.writes (h : s.Rebinds o name v t) : s.Writes o name v t where
  toRebinds := h
  owner_iff _ := h.owner?_eq_some_iff
  reads _ ho := h.lookup?_of_owner? ho
  elsewhere _ _ hn :=
    have hunseen := fun he hs ↦ hn he (h.owner?_eq_some_iff.mpr hs)
    ⟨h.owner?_eq hunseen, h.lookup?_eq hunseen⟩

/-- The scope that an assignment from the scope `i` writes to, on the way to `t`: the owner of the
name, which keeps its owner wherever it was, or without an owner the scope itself. -/
inductive Target (s : Scopes) (i : ScopeId) (name : Bytes) (t : Scopes) : ScopeId → Prop where
  | owner {o : ScopeId} (owner : s.owner? i name = some o)
      (same : ∀ j, t.owner? j name = some o ↔ s.owner? j name = some o) : Target s i name t o
  | here (unbound : s.owner? i name = none) : Target s i name t i

private theorem exists_target (opened : i.index < s.all.size) (name : Bytes) (v : Value) :
    ∃ o, s.Writes o name v (s.assign i name v) ∧ s.Target i name (s.assign i name v) o ∧
      (s.assign i name v).owner? i name = some o := by
  rw [assign]
  cases ho : s.owner? i name with
  | none =>
    have hr : s.Rebinds i name v (s.bind i name v) := rebinds_bind opened name v
    exact ⟨i, hr.writes, .here ho, hr.owner?_eq_some_iff.mpr .here⟩
  | some o =>
    obtain ⟨sees, binds⟩ := owner?_eq_some_iff.mp ho
    have hr : s.Rebinds o name v (s.bind o name v) := rebinds_bind (lt_size_of_binds binds) name v
    refine ⟨o, hr.writes, .owner ho fun j ↦ ?_, hr.owner?_eq_some_iff.mpr sees⟩
    rw [Option.getD_some, hr.owner?_eq_some_iff, owner?_eq_some_iff, and_iff_left binds]

end Writes
end Scopes

namespace Machine

/-- What the three ways of asking for a name come to: whether it is bound, the scope that binds it,
and its value. -/
inductive Finds (m : Machine) (i : ScopeId) (name : Bytes) (l : Location) :
    Bool → Option ScopeId → Exec.Ending Value → Prop where
  /-- The nearest scope that binds the name binds it to the value. -/
  | bound {o : ScopeId} {v : Value} (sees : m.scopes.Sees name o i)
      (binding : m.scopes.binding? o name = some v) : Finds m i name l true (some o) (.ok v m)
  /-- No scope on the way outwards binds the name. -/
  | unbound (nowhere : ∀ o, m.scopes.Sees name o i → m.scopes.binding? o name = none) :
      Finds m i name l false none
        (.error (.error { cause := .unboundVariable name, location := l }) m)

/-- How a name is read, declared and assigned to from a scope. -/
structure Variable (m : Machine) (i : ScopeId) (name : Bytes) (v : Value) (l : Location) :
    Prop where
  finds : m.Finds i name l (m.scopes.has i name) (m.scopes.owner? i name)
    (Exec.lookup i name l m)
  declares : ∃ t, Exec.declare i name v m = .ok () { m with scopes := t } ∧
    m.scopes.Writes i name v t
  assigns : ∃ o t, Exec.assign i name v m = .ok () { m with scopes := t } ∧
    m.scopes.Writes o name v t ∧ m.scopes.Target i name t o ∧ t.owner? i name = some o

private theorem finds (m : Machine) (i : ScopeId) (name : Bytes) (l : Location) :
    m.Finds i name l (m.scopes.has i name) (m.scopes.owner? i name) (Exec.lookup i name l m) := by
  rw [Scopes.has_eq_isSome_owner?, Exec.lookup, Scopes.lookup?_eq_bind_owner?]
  cases ho : m.scopes.owner? i name with
  | none => exact .unbound fun o sees ↦ Scopes.binding?_of_owner?_eq_none ho sees
  | some o =>
    obtain ⟨sees, binds⟩ := Scopes.owner?_eq_some_iff.mp ho
    rw [Scopes.binds_eq_isSome, Option.isSome_iff_exists] at binds
    obtain ⟨v, hv⟩ := binds
    simp only [Option.bind_some, hv]
    exact .bound sees hv

/-- In every tree of scopes the three ways of asking for a name agree on the nearest scope that
binds it. A declaration writes to the scope at hand, and an assignment to the owner of the name, or
to the scope at hand if it has none. What is written is read wherever that scope is the owner then,
and everything else is read as before. -/
theorem variable_lawful {m : Machine} {i : ScopeId} (opened : i.index < m.scopes.all.size)
    (name : Bytes) (v : Value) (l : Location) : m.Variable i name v l := by
  have hdeclared : m.scopes.Rebinds i name v (m.scopes.bind i name v) :=
    Scopes.rebinds_bind opened name v
  obtain ⟨o, hwrites, htarget, howner⟩ := Scopes.exists_target opened name v
  exact ⟨m.finds i name l, ⟨_, rfl, hdeclared.writes⟩, o, _, rfl, hwrites, htarget, howner⟩

/-- From an inner scope a variable of the outer one is assigned to, which its neighbour sees. -/
theorem variable_lawful_inner :
    let outer := ((Scopes.enter {} none).2.bind .global "x" (.int 1)).enter (some .global)
    let m : Machine := { scopes := (outer.2.enter (some .global)).2 }
    outer.1.index < m.scopes.all.size ∧ m.Variable outer.1 "x" (.int 2) {} ∧
      ∃ t, Exec.assign outer.1 "x" (.int 2) m = .ok () { m with scopes := t } ∧
        t.owner? ⟨2⟩ "x" = some .global ∧ t.lookup? ⟨2⟩ "x" = some (.int 2) := by
  intro outer m
  have opened : outer.1.index < m.scopes.all.size := by decide
  exact ⟨opened, variable_lawful opened "x" (.int 2) {}, _, rfl, by decide +kernel,
    by decide +kernel⟩

end Machine
end Scriptlet
