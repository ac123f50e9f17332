import Scriptlet.Proofs.Evaluation.Congruence
import Scriptlet.Proofs.Locality.Reading
import Scriptlet.Proofs.Scope.Frame

/-!
# Runs on linked machines

Two computations are alike if they come to alike results on linked machines, and leave linked
machines: the pairing may have grown, and whatever was not paired before has been left alone. The
steps of the machine are alike, and so is what is put together from them.
-/

namespace Scriptlet

variable {π : Pairing}

/-- Scopes are alike if they bind the same names to alike values, inside the same parent. -/
structure Scope.Alike (π : Pairing) (s t : Scope) : Prop where
  bindings : ∀ name : Bytes, Pairable.Alike π s.bindings[name]? t.bindings[name]?
  parent : t.parent = s.parent

/-- The same scopes are open, and they are alike one by one. -/
def Scopes.Alike (π : Pairing) (s t : Scopes) : Prop :=
  List.Forall₂ (Scope.Alike π) s.all.toList t.all.toList

/-- The same names have alike values. -/
abbrev BindingsAlike (π : Pairing) : List (Bytes × Value) → List (Bytes × Value) → Prop :=
  List.Forall₂ fun b c ↦ c.1 = b.1 ∧ Alike π b.2 c.2

namespace Scopes.Alike

variable {s t : Scopes} {v w : Value}

/-- More pairs do no harm. -/
theorem mono {π' : Pairing} (h : s.Alike π t) (hle : π ≤ π') : s.Alike π' t :=
  List.Forall₂.imp (fun _ _ hs ↦ ⟨fun name ↦ (hs.bindings name).mono hle, hs.parent⟩) h

private theorem size_eq (h : s.Alike π t) : t.all.size = s.all.size := h.length_eq.symm

private theorem scope (h : s.Alike π t) (i : ScopeId) : (s.scope i).Alike π (t.scope i) := by
  have hi := forall₂_getElem? h i.index
  rw [Array.getElem?_toList, Array.getElem?_toList] at hi
  rw [Scopes.scope, Scopes.scope, Array.getD_eq_getD_getElem?, Array.getD_eq_getD_getElem?]
  generalize s.all[i.index]? = x at hi
  generalize t.all[i.index]? = y at hi
  cases hi with
  | some hi => exact hi
  | none => exact ⟨fun _ ↦ .none, rfl⟩

private theorem chain_eq (h : s.Alike π t) (i : ScopeId) : t.chain i = s.chain i :=
  chain_congr s t i fun j _ ↦ (h.scope j).parent

private theorem binding? (h : s.Alike π t) (i : ScopeId) (name : Bytes) :
    Pairable.Alike π (s.binding? i name) (t.binding? i name) := (h.scope i).bindings name

private theorem binds_eq (h : s.Alike π t) (i : ScopeId) (name : Bytes) :
    t.binds i name = s.binds i name := by
  rw [binds_eq_isSome, binds_eq_isSome]
  have hb := h.binding? i name
  generalize s.binding? i name = x at hb
  generalize t.binding? i name = y at hb
  cases hb <;> rfl

/-- A name means alike values, or nothing. -/
theorem lookup? (h : s.Alike π t) (i : ScopeId) (name : Bytes) :
    Pairable.Alike π (s.lookup? i name) (t.lookup? i name) := by
  rw [Scopes.lookup?, Scopes.lookup?, h.chain_eq]
  induction s.chain i with
  | nil => exact .none
  | cons j chain ih =>
    have hb := h.binding? j name
    rw [List.findSome?_cons, List.findSome?_cons]
    generalize s.binding? j name = x at hb
    generalize t.binding? j name = y at hb
    cases hb with
    | some hb => exact .some hb
    | none => exact ih

private theorem owner?_eq (h : s.Alike π t) (i : ScopeId) (name : Bytes) :
    t.owner? i name = s.owner? i name := by
  have hbinds : (t.binds · name) = (s.binds · name) := funext fun j ↦ h.binds_eq j name
  rw [Scopes.owner?, Scopes.owner?, h.chain_eq, hbinds]

/-- A name may be bound to alike values. -/
theorem bind (h : s.Alike π t) (i : ScopeId) (name : Bytes) (hv : Pairable.Alike π v w) :
    (s.bind i name v).Alike π (t.bind i name w) := by
  simp only [Scopes.Alike, Scopes.bind, Array.toList_modify]
  apply forall₂_modify h
  intro a b hab
  refine ⟨fun n ↦ ?_, hab.parent⟩
  rw [Std.TreeMap.getElem?_insert, Std.TreeMap.getElem?_insert]
  split
  · exact .some hv
  · exact hab.bindings n

private theorem assign (h : s.Alike π t) (i : ScopeId) (name : Bytes) (hv : Pairable.Alike π v w) :
    (s.assign i name v).Alike π (t.assign i name w) := by
  rw [Scopes.assign, Scopes.assign, h.owner?_eq]
  exact h.bind _ name hv

private theorem bindAll (h : s.Alike π t) (i : ScopeId) {bs cs : List (Bytes × Value)}
    (hbs : BindingsAlike π bs cs) : (s.bindAll i bs).Alike π (t.bindAll i cs) := by
  induction hbs generalizing s t with
  | nil => exact h
  | @cons b c _ _ hb _ ih =>
    obtain ⟨name, v⟩ := b
    obtain ⟨name', w⟩ := c
    obtain ⟨rfl, hv⟩ := hb
    exact ih (h.bind i _ hv)

/-- A scope may be opened; it has the same number. -/
theorem enter (h : s.Alike π t) (parent : Option ScopeId) :
    (t.enter parent).1 = (s.enter parent).1 ∧
      (s.enter parent).2.Alike π (t.enter parent).2 := by
  refine ⟨by rw [Scopes.enter, Scopes.enter, h.size_eq], ?_⟩
  simp only [Scopes.Alike, Scopes.enter, Array.toList_push]
  exact List.rel_append h (.cons ⟨fun _ ↦ .none, rfl⟩ .nil)

private theorem leave (h : s.Alike π t) (i : ScopeId) : (s.leave i).Alike π (t.leave i) := by
  have htake (s : Scopes) : (s.leave i).all.toList = s.all.toList.take i.index := by
    simp [Scopes.leave]
  rw [Scopes.Alike, htake, htake]
  exact List.forall₂_take i.index h

end Scopes.Alike

/-- Machines are linked if their heaps are and their scopes are alike, and they have written the
same and have equally many calls active. -/
structure Machine.Linked (π : Pairing) (m m' : Machine) : Prop where
  heap : m.heap.Linked π m'.heap
  scopes : m.scopes.Alike π m'.scopes
  output : m'.output = m.output
  depth : m'.depth = m.depth

/-- Flags are alike if they are the same but for the value returned, which is alike. -/
structure Flags.Alike (π : Pairing) (f g : Flags) : Prop where
  returnValue : Pairable.Alike π f.returnValue g.returnValue
  didReturn : g.didReturn = f.didReturn
  loop : g.loop = f.loop

instance : Pairable Flags where
  Alike := Flags.Alike
  mono hle h := ⟨h.returnValue.mono hle, h.didReturn, h.loop⟩

namespace Exec

variable {α β : Type} [Pairable α] [Pairable β]

/-- Two runs that begin on two linked heaps end alike: with alike results or the same stop, on
linked machines, and with everything left alone that was not paired. -/
inductive EndAlike (π : Pairing) (h k : Heap) : Ending α → Ending α → Prop where
  | ok {π' : Pairing} {a b : α} {m m' : Machine} (grown : Grown π h k π' m.heap m'.heap)
      (linked : m.Linked π' m') (value : Alike π' a b) : EndAlike π h k (.ok a m) (.ok b m')
  | error {π' : Pairing} {m m' : Machine} (stop : Stop)
      (grown : Grown π h k π' m.heap m'.heap) (linked : m.Linked π' m') :
      EndAlike π h k (.error stop m) (.error stop m')

/-- Two computations end alike wherever at least these containers are paired. -/
structure RunsAlike (π : Pairing) (x y : Exec α) : Prop where
  ends : ∀ {π' : Pairing} {m m' : Machine}, π ≤ π' → m.Linked π' m' →
    EndAlike π' m.heap m'.heap (x m) (y m')

namespace EndAlike

variable {h k : Heap} {m m' : Machine} {r r' : Ending α}

private theorem after {π₀ : Pairing} {h₀ k₀ : Heap} (hr : EndAlike π h k r r')
    (hg : Grown π₀ h₀ k₀ π h k) : EndAlike π₀ h₀ k₀ r r' := by
  cases hr with
  | ok grown linked value => exact .ok (hg.trans grown) linked value
  | error stop grown linked => exact .error stop (hg.trans grown) linked

private theorem of_alike {a b : α} (hm : m.Linked π m') (hab : Alike π a b) :
    EndAlike π m.heap m'.heap (.ok a m) (.ok b m') := .ok (.refl _ _ _) hm hab

/-- Stopping alike on linked machines is ending alike. -/
theorem of_stop (hm : m.Linked π m') (stop : Stop) :
    EndAlike π m.heap m'.heap (.error stop m : Ending α) (.error stop m') :=
  .error stop (.refl _ _ _) hm

private theorem always {x y : Exec α} {g g' : Machine → Machine} (hr : EndAlike π h k (x m) (y m'))
    (hg : ∀ m, (g m).heap = m.heap) (hg' : ∀ m, (g' m).heap = m.heap)
    (hlinked : ∀ {π' m₁ m₁'}, π ≤ π' → m₁.Linked π' m₁' → (g m₁).Linked π' (g' m₁')) :
    EndAlike π h k (andThenAlways x g m) (andThenAlways y g' m') := by
  rw [andThenAlways, andThenAlways]
  generalize x m = r at hr
  generalize y m' = r' at hr
  cases hr with
  | @ok π' a b m₁ m₁' grown linked value =>
    exact .ok (by rw [hg, hg']; exact grown) (hlinked grown.le linked) value
  | @error π' m₁ m₁' stop grown linked =>
    exact .error stop (by rw [hg, hg']; exact grown) (hlinked grown.le linked)

end EndAlike

namespace RunsAlike

variable {x y : Exec α} {f g : α → Exec β}

/-- A result. -/
theorem pure {a b : α} (hab : Alike π a b) : RunsAlike π (Pure.pure a) (Pure.pure b) :=
  ⟨fun hle hm ↦ .of_alike hm (hab.mono hle)⟩

/-- An error. -/
theorem raise (cause : Cause) (l : Location) :
    RunsAlike π (Exec.raise cause l : Exec α) (Exec.raise cause l) :=
  ⟨fun _ hm ↦ .of_stop hm _⟩

/-- Sequences run alike if their parts do, the second part along more pairs. -/
theorem bind (hx : RunsAlike π x y)
    (hf : ∀ {π' a b}, π ≤ π' → Alike π' a b → RunsAlike π' (f a) (g b)) :
    RunsAlike π (x >>= f) (y >>= g) := by
  constructor
  intro π' m m' hle hm
  have hxy := hx.ends hle hm
  simp only [Bind.bind, EStateM.bind]
  generalize x m = r at hxy
  generalize y m' = r' at hxy
  cases hxy with
  | ok grown linked value =>
    exact ((hf (hle.trans grown.le) value).ends (le_refl _) linked).after grown
  | error stop grown linked => exact .error stop grown linked

/-- Something in a scope of its own. -/
theorem withScope (parent : ScopeId) {x y : ScopeId → Exec α}
    (h : ∀ inner, RunsAlike π (x inner) (y inner)) :
    RunsAlike π (Exec.withScope parent x) (Exec.withScope parent y) := by
  constructor
  intro π' m m' hle hm
  obtain ⟨hinner, hscopes⟩ := hm.scopes.enter (some parent)
  simp only [Exec.withScope, hinner]
  have hinside : Machine.Linked π' { m with scopes := (m.scopes.enter (some parent)).2 }
      { m' with scopes := (m'.scopes.enter (some parent)).2 } :=
    ⟨hm.heap, hscopes, hm.output, hm.depth⟩
  exact ((h _).ends hle hinside).always (fun _ ↦ rfl) (fun _ ↦ rfl)
    fun _ hl ↦ ⟨hl.heap, hl.scopes.leave _, hl.output, hl.depth⟩

/-- Something in a frame of its own, below the same limit. -/
theorem withFrame {ctx ctx' : Context} (limit : ctx'.maxDepth = ctx.maxDepth) (callee : Bytes)
    (l : Location) (h : RunsAlike π x y) :
    RunsAlike π (Exec.withFrame ctx callee l x) (Exec.withFrame ctx' callee l y) := by
  constructor
  intro π' m m' hle hm
  simp only [Exec.withFrame, hm.depth, limit]
  split
  · exact (raise _ l).ends hle hm
  · have hinside : Machine.Linked π' { m with depth := m.depth + 1 }
        { m' with depth := m.depth + 1 } := ⟨hm.heap, hm.scopes, hm.output, rfl⟩
    exact (h.ends hle hinside).always (fun _ ↦ rfl) (fun _ ↦ rfl)
      fun _ hl ↦ ⟨hl.heap, hl.scopes, hl.output, congrArg (· - 1) hl.depth⟩

end RunsAlike

section Steps

variable {v w : Value}

private theorem runsAlike_inspect_bind {γ : Type} {f f' : Heap → γ} {g g' : γ → Exec α}
    (h : ∀ {π' h k}, π ≤ π' → Heap.Linked π' h k → RunsAlike π' (g (f h)) (g' (f' k))) :
    RunsAlike π (inspect f >>= g) (inspect f' >>= g') :=
  ⟨fun hle hm ↦ (h hle hm.heap).ends (le_refl _) hm⟩

/-- The result of a pure operation. -/
theorem runsAlike_lift (l : Location) {x y : Except Cause α} (h : Alike π x y) :
    RunsAlike π (lift l x) (lift l y) := by
  cases h with
  | ok value => exact .pure value
  | error cause => exact .raise cause l

/-- What an operation gives on the heap as it is. -/
theorem runsAlike_operate (l : Location) {f f' : Heap → Except Cause α}
    (h : ∀ {π' h k}, π ≤ π' → Heap.Linked π' h k → Alike π' (f h) (f' k)) :
    RunsAlike π (operate l f) (operate l f') :=
  runsAlike_inspect_bind fun hle hl ↦ runsAlike_lift l (h hle hl)

/-- What is consulted of linked heaps is alike if it is read off alike. -/
theorem runsAlike_consult {f f' : Heap → Except ScriptError α}
    (h : ∀ {π' h k}, π ≤ π' → Heap.Linked π' h k → Alike π' (f h) (f' k)) :
    RunsAlike π (consult f) (consult f') := by
  constructor
  intro π' m m' hle hm
  have hf := h hle hm.heap
  rw [consult, consult]
  generalize f m.heap = x at hf
  generalize f' m'.heap = y at hf
  cases hf with
  | ok value => exact .of_alike hm value
  | error e => exact .of_stop hm _

/-- A condition. -/
theorem runsAlike_condition (l : Location) (hv : Alike π v w) :
    RunsAlike π (condition l v) (condition l w) := by
  cases hv with
  | bool b => exact .pure rfl
  | _ => exact .raise _ l

/-- A key of a dictionary. -/
theorem runsAlike_dictKey (l : Location) (hv : Alike π v w) :
    RunsAlike π (lift l (dictKey v)) (lift l (dictKey w)) := by
  rw [Value.Alike.dictKey_eq hv]
  cases dictKey v with
  | ok k => exact .pure rfl
  | error cause => exact .raise cause l

/-- A variable. -/
theorem runsAlike_lookup (scope : ScopeId) (name : Bytes) (l : Location) :
    RunsAlike π (lookup scope name l) (lookup scope name l) := by
  constructor
  intro π' m m' _ hm
  have hb := hm.scopes.lookup? scope name
  rw [lookup, lookup]
  generalize m.scopes.lookup? scope name = x at hb
  generalize m'.scopes.lookup? scope name = y at hb
  cases hb with
  | some hb => exact .of_alike hm hb
  | none => exact .of_stop hm _

private theorem runsAlike_scopes {f f' : Scopes → Scopes}
    (h : ∀ {π' s t}, π ≤ π' → Scopes.Alike π' s t → (f s).Alike π' (f' t)) :
    RunsAlike π (fun m ↦ .ok () { m with scopes := f m.scopes })
      fun m ↦ .ok () { m with scopes := f' m.scopes } :=
  ⟨fun hle hm ↦ .ok (.refl _ _ _) ⟨hm.heap, h hle hm.scopes, hm.output, hm.depth⟩ rfl⟩

/-- A declaration. -/
theorem runsAlike_declare (scope : ScopeId) (name : Bytes) (hv : Alike π v w) :
    RunsAlike π (declare scope name v) (declare scope name w) :=
  runsAlike_scopes fun hle hs ↦ hs.bind scope name (hv.mono hle)

/-- An assignment to a variable. -/
theorem runsAlike_assign (scope : ScopeId) (name : Bytes) (hv : Alike π v w) :
    RunsAlike π (assign scope name v) (assign scope name w) :=
  runsAlike_scopes fun hle hs ↦ hs.assign scope name (hv.mono hle)

/-- Bindings of several names. -/
theorem runsAlike_bindAll (scope : ScopeId) {bs cs : List (Bytes × Value)}
    (hbs : BindingsAlike π bs cs) : RunsAlike π (bindAll scope bs) (bindAll scope cs) :=
  runsAlike_scopes fun hle hs ↦
    hs.bindAll scope (hbs.imp fun _ _ hb ↦ ⟨hb.1, hb.2.mono hle⟩)

/-- Text that is written. -/
theorem runsAlike_write (text : Bytes) : RunsAlike π (write text) (write text) :=
  ⟨fun _ hm ↦ .ok (.refl _ _ _)
    ⟨hm.heap, hm.scopes, congrArg (·.appendList text) hm.output, hm.depth⟩ rfl⟩

/-- A new array. -/
theorem runsAlike_newArray {vs ws : List Value} (hvs : Alike π vs ws) :
    RunsAlike π (newArray vs) (newArray ws) := by
  constructor
  intro π' m m' hle hm
  obtain ⟨hgrown, hlinked⟩ := hm.heap.newArray (hvs.mono hle)
  exact .ok hgrown ⟨hlinked, hm.scopes.mono hgrown.le, hm.output, hm.depth⟩
    (.array (Or.inr ⟨rfl, rfl⟩))

/-- A new dictionary. -/
theorem runsAlike_newDict {d e : Dictionary} (hde : Alike π d e) :
    RunsAlike π (newDict d) (newDict e) := by
  constructor
  intro π' m m' hle hm
  obtain ⟨hgrown, hlinked⟩ := hm.heap.newDict (hde.mono hle)
  exact .ok hgrown ⟨hlinked, hm.scopes.mono hgrown.le, hm.output, hm.depth⟩
    (.dict (Or.inr ⟨rfl, rfl⟩))

/-- A value that is written by index, and what is done then. -/
theorem runsAlike_write_bind (l : Location) {a a' b b' : Value} {x y : Exec α}
    (ha : Alike π a a') (hb : Alike π b b') (hv : Alike π v w) (hxy : RunsAlike π x y) :
    RunsAlike π (operate l (·.write a b v) >>= fun h ↦ (modifyHeap fun _ ↦ h) >>= fun _ ↦ x)
      (operate l (·.write a' b' w) >>= fun h ↦ (modifyHeap fun _ ↦ h) >>= fun _ ↦ y) := by
  constructor
  intro π' m m' hle hm
  rcases hm.heap.write (ha.mono hle) (hb.mono hle) (hv.mono hle) with
    ⟨cause, he, he'⟩ | ⟨h, k, hw, hw', hgrown, hlinked⟩
  · simp only [operate, Bind.bind, EStateM.bind, inspect, he, he']
    exact .of_stop hm _
  · simp only [operate, Bind.bind, EStateM.bind, inspect, hw, hw', lift, Pure.pure,
      EStateM.pure, modifyHeap]
    have hstored : Machine.Linked π' { m with heap := h } { m' with heap := k } :=
      ⟨hlinked, hm.scopes, hm.output, hm.depth⟩
    exact (hxy.ends hle hstored).after hgrown

end Steps
end Exec
end Scriptlet
