import Scriptlet.Proofs.Locality.Region
import Scriptlet.Proofs.Locality.Session
import Scriptlet.Proofs.Session.Evolution

/-!
# No handle dangles

Whatever a host does, the registers and the evaluators of its session hold handles to containers of
its heap only, and so do these containers. It is said by a pairing: the session is like itself along
one that reaches all of its containers.
-/

namespace Scriptlet

namespace Dictionary.Alike

variable {π : Pairing} {d e : Dictionary} {v w : Value}

private theorem clear (h : Dictionary.Alike π d e) : Dictionary.Alike π d.clear e.clear :=
  ⟨.nil, rfl, rfl, congrArg (· + 1) h.version⟩

private theorem overwrite (h : Dictionary.Alike π d e) (k : Key) (hv : Scriptlet.Alike π v w) :
    Dictionary.Alike π (d.overwrite k v) (e.overwrite k w) := by
  rw [Dictionary.overwrite, Dictionary.overwrite, h.index]
  cases d.index[k]? with
  | some i => exact h.overwriteAt i hv
  | none => exact h

private theorem removed (h : Dictionary.Alike π d e) (k : Key) :
    Dictionary.Alike π ((d.remove? k).getD (.none, d)).2 ((e.remove? k).getD (.none, e)).2 := by
  have hremoved := h.remove? k
  generalize d.remove? k = p at hremoved
  generalize e.remove? k = q at hremoved
  cases hremoved with
  | some hpq => exact hpq.2
  | none => exact h

private theorem act (h : Dictionary.Alike π d d) (a : Action)
    (ha : ∀ v ∈ a.given, Scriptlet.Alike π v v) : Dictionary.Alike π (d.act a).2 (d.act a).2 := by
  cases a with
  | set k v => exact h.set k (ha v List.mem_cons_self)
  | remove k wanted =>
    have hremoved := h.removed k
    rw [Dictionary.act]
    cases hr : d.remove? k with
    | none => exact h
    | some p =>
      rw [hr] at hremoved
      exact hremoved
  | overwrite k v => exact h.overwrite k (ha v List.mem_cons_self)
  | clear | takeValues out => exact h.clear
  | reserve room => exact h

end Dictionary.Alike

/-- The usual built-in functions are no others. -/
theorem Builtin.mem_defaults_of_getElem? {name : Bytes} {b : Builtin}
    (hb : defaultTable[name]? = some b) : b ∈ defaults := by
  have hfold (bs : List Builtin) (hbs : ∀ c ∈ bs, c ∈ defaults) (table : Std.TreeMap Bytes Builtin)
      (ht : ∀ (n : Bytes) (c : Builtin), table[n]? = some c → c ∈ defaults) (n : Bytes)
      (c : Builtin) (hc : (bs.foldl (fun table b ↦ table.insert b.name b) table)[n]? = some c) :
      c ∈ defaults := by
    induction bs generalizing table with
    | nil => exact ht n c hc
    | cons d bs ih =>
      refine ih (fun c hc ↦ hbs c (List.mem_cons_of_mem _ hc)) (table.insert d.name d)
        (fun n c hc ↦ ?_) hc
      rw [Std.TreeMap.getElem?_insert] at hc
      split at hc
      · cases hc
        exact hbs d List.mem_cons_self
      · exact ht n c hc
  exact hfold defaults (fun _ hc ↦ hc) ∅ (fun _ _ hc ↦ by simp at hc) name b hb

/-- A new evaluator holds nothing. -/
theorem Evaluator.not_holds_new (maxDepth : Nat) (v : Value) : ¬ (new maxDepth).Holds v := by
  rintro (⟨bound⟩ | ⟨offered⟩)
  · rw [lookup_eq_ok_iff] at bound
    simp [new, Scopes.binding?, Scopes.scope, Scopes.enter, ScopeId.global] at bound
  · have hb := Builtin.mem_defaults_of_getElem? offered
    simp [Builtin.defaults] at hb

/-- All evaluators and registers of a session. -/
def Part.whole : Part := ⟨Set.univ, Set.univ⟩

/-- A session is like itself along a pairing of all its containers. -/
structure Session.Closed (π : Pairing) (s : Session) : Prop where
  alike : s.Alike π .whole s
  paired : ∀ {c}, s.heap.Has c → ∃ d, π c d

section Closing

variable {π π' : Pairing} {s s' : Session} {h : Heap} {v : Value}

namespace Session.Closed

/-- The heap is linked with itself. -/
theorem linked (hs : s.Closed π) : s.heap.Linked π s.heap := hs.alike.heap

private theorem withHeap (hs : s.Closed π) (hgrown : Grown π s.heap s.heap π' h h)
    (hlinked : h.Linked π' h) : Session.Closed π' { s with heap := h } where
  alike :=
    ⟨hlinked, fun name hn ↦ (hs.alike.evaluators name hn).mono hgrown.le,
      fun name hn ↦ (hs.alike.registers name hn).mono hgrown.le⟩
  paired hc := by
    rcases hgrown.made hc with hc | hp
    · obtain ⟨d, hp⟩ := hs.paired hc
      exact ⟨d, hgrown.le _ _ hp⟩
    · exact hp

private theorem withRegisters (hs : s.Closed π) {registers : Std.TreeMap Bytes Value}
    (hr : ∀ name : Bytes, Pairable.Alike π registers[name]? registers[name]?) :
    Session.Closed π { s with registers } where
  alike := ⟨hs.alike.heap, hs.alike.evaluators, fun name _ ↦ hr name⟩
  paired := hs.paired

private theorem withEvaluator (hs : s.Closed π) (name : Bytes) {ev : Evaluator}
    (hev : Pairable.Alike π ev ev) :
    Session.Closed π { s with evaluators := s.evaluators.insert name ev } where
  alike := by
    refine ⟨hs.alike.heap, fun other hn ↦ ?_, hs.alike.registers⟩
    simp only [Std.TreeMap.getElem?_insert]
    split
    · exact .some hev
    · exact hs.alike.evaluators other hn
  paired := hs.paired

private theorem of_eq (hs : s.Closed π) (hheap : s'.heap = s.heap)
    (hevaluators : s'.evaluators = s.evaluators) (hregisters : s'.registers = s.registers) :
    s'.Closed π where
  alike := by
    refine ⟨?_, fun name hn ↦ ?_, fun name hn ↦ ?_⟩
    · rw [hheap]
      exact hs.alike.heap
    · rw [hevaluators]
      exact hs.alike.evaluators name hn
    · rw [hregisters]
      exact hs.alike.registers name hn
  paired := by
    rw [hheap]
    exact hs.paired

private theorem insert (hs : s.Closed π) (register : Bytes) (hv : Pairable.Alike π v v) :
    Session.Closed π { s with registers := s.registers.insert register v } := by
  apply hs.withRegisters
  intro name
  rw [Std.TreeMap.getElem?_insert]
  split
  · exact .some hv
  · exact hs.alike.registers name trivial

private theorem erase (hs : s.Closed π) (register : Bytes) :
    Session.Closed π { s with registers := s.registers.erase register } := by
  apply hs.withRegisters
  intro name
  rw [Std.TreeMap.getElem?_erase]
  split
  · exact .none
  · exact hs.alike.registers name trivial

end Session.Closed

private theorem Heap.Linked.held (hl : h.Linked π h) {c : Container} (hp : π c c) :
    Alike π (h.held c) (h.held c) := by
  cases c with
  | array r => exact hl.array hp
  | dict r => exact Dictionary.Alike.values (hl.dict hp)

namespace Session

private theorem Closed.newEvaluator (hs : s.Closed π) (name : Bytes) (maxDepth : Nat) :
    Closed π { s with evaluators := s.evaluators.insert name (Evaluator.new maxDepth) } := by
  have hnew : Pairable.Alike (.within fun _ ↦ False) (Evaluator.new maxDepth)
      (Evaluator.new maxDepth) :=
    Evaluator.alike_within rfl fun v hv ↦ (Evaluator.not_holds_new maxDepth v hv).elim
  exact hs.withEvaluator name (hnew.mono fun _ _ hp ↦ hp.2.elim)

private theorem Closed.operate (hs : s.Closed π) (op : Heap.Operation)
    (hop : ∀ v ∈ op.given, Pairable.Alike π v v) :
    ∃ π', π ≤ π' ∧ Closed π' { s with heap := (s.heap.operate op).2 } ∧
      ∀ c ∈ op.made s.heap, Pairable.Alike π' c.handle c.handle := by
  cases op with
  | newArray elements =>
    obtain ⟨hgrown, hlinked⟩ := hs.linked.newArray (List.forall₂_same.mpr hop)
    refine ⟨_, hgrown.le, hs.withHeap hgrown hlinked, ?_⟩
    rintro c ⟨⟩
    exact .array (Or.inr ⟨rfl, rfl⟩)
  | setArray r elements =>
    obtain ⟨hr, hvs⟩ := List.forall_mem_cons.mp hop
    cases hr with
    | array paired =>
      obtain ⟨hgrown, hlinked⟩ := hs.linked.modifyArray (f := fun _ ↦ elements)
        (g := fun _ ↦ elements) paired (List.forall₂_same.mpr hvs)
      exact ⟨_, hgrown.le, hs.withHeap hgrown hlinked, nofun⟩
  | newDict =>
    obtain ⟨hgrown, hlinked⟩ := hs.linked.newDict (Dictionary.alike_empty π)
    refine ⟨_, hgrown.le, hs.withHeap hgrown hlinked, ?_⟩
    rintro c ⟨⟩
    exact .dict (Or.inr ⟨rfl, rfl⟩)
  | onDict r a =>
    obtain ⟨hr, ha⟩ := List.forall_mem_cons.mp hop
    cases hr with
    | dict paired =>
      have hact := (hs.linked.dict paired).act a ha
      obtain ⟨hgrown, hlinked⟩ := hs.linked.modifyDict (f := fun _ ↦ _) (g := fun _ ↦ _) paired hact
      exact ⟨_, hgrown.le, hs.withHeap hgrown hlinked, nofun⟩
  | copyDict r =>
    cases hop _ List.mem_cons_self with
    | dict paired =>
      obtain ⟨hgrown, hlinked⟩ := hs.linked.newDict (hs.linked.dict paired)
      refine ⟨_, hgrown.le, hs.withHeap hgrown hlinked, ?_⟩
      rintro c ⟨⟩
      exact .dict (Or.inr ⟨rfl, rfl⟩)

private theorem Closed.perform (hs : s.Closed π) (op : EvaluatorOperation) {name : Bytes}
    {ev : Evaluator} {vs : List Value} (hev : s.evaluators[name]? = some ev)
    (hvs : ∀ v ∈ vs, Pairable.Alike π v v) :
    let o := op.perform ev s.heap vs
    ∃ π', π ≤ π' ∧
      Closed π' { s with heap := o.heap, evaluators := s.evaluators.insert name o.evaluator } ∧
      ∀ v, o.result = .ok (.value v) → Pairable.Alike π' v v := by
  intro o
  have hself : Pairable.Alike π ev ev := by
    have h := hs.alike.evaluators name trivial
    rw [hev] at h
    cases h with
    | some h => exact h
  obtain ⟨π', hgrown, ho⟩ := op.perform_alike hs.linked hself (List.forall₂_same.mpr hvs)
  refine ⟨π', hgrown.le, (hs.withHeap hgrown ho.heap).withEvaluator name ho.evaluator, ?_⟩
  intro v hv
  have hresult := ho.result
  rw [hv] at hresult
  cases hresult with
  | ok value =>
    cases value with
    | value hv => exact hv

/-- Closed sessions are told of by the pairings along which they are like themselves. -/
def closure : Invariant Pairing where
  Holds π s := s.Closed π
  Knows π v := Pairable.Alike π v v
  mono hle h := h.mono hle
  scalar _ _ := Value.alike_self
  kept {_ _ register _} hs hr := by
    have h := hs.alike.registers register trivial
    rw [hr] at h
    cases h with
    | some h => exact h
  held {_ _ c v} hs hc hv := by
    obtain ⟨d, hd, hp⟩ := Value.Alike.paired hc c.container?_handle
    obtain rfl : c = d := Option.some.inj (c.container?_handle.symm.trans hd)
    exact List.forall₂_same.mp (hs.linked.held hp) v hv
  read hs hc hkey hread := by
    have h := hs.linked.read hc hkey
    rw [hread] at h
    cases h with
    | ok value => exact value
  beside hs heap registers evaluators := hs.of_eq heap evaluators registers
  keep register hs := hs.insert register
  drop register hs := hs.erase register
  operate op hs := hs.operate op
  join name maxDepth hs := hs.newEvaluator name maxDepth
  perform op hs := hs.perform op

/-- A session begins with an empty heap. -/
theorem closed_empty : Closed (fun _ _ ↦ False) {} := by
  refine ⟨⟨?_, fun _ _ ↦ .none, fun _ _ ↦ .none⟩, fun {c} hc ↦ ?_⟩
  · exact ⟨False.elim, False.elim, False.elim, False.elim, False.elim⟩
  · cases c <;> exact absurd hc (Nat.not_lt_zero _)

/-- Whatever a host does, no handle of its session dangles. -/
theorem exists_closed_steps_start (evaluator : Bytes) (maxDepth : Nat) (ops : List Operation) :
    ∃ π, ((start evaluator maxDepth).steps ops).2.Closed π := by
  have hempty : closure.Holds (fun _ _ ↦ False) {} := closed_empty
  obtain ⟨π, -, hs⟩ := Invariant.steps_start hempty evaluator maxDepth ops
  exact ⟨π, hs⟩

end Session
end Closing
end Scriptlet
