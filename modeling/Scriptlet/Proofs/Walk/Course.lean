import Scriptlet.Proofs.Heap.History
import Scriptlet.Proofs.Walk.Position

/-!
# The course of a walk

Walks go on while other walks go on beside them and while the containers change. As long as
the array keeps its length or the dictionary its version, a walk visits the keys that were
there at its start, in their order, each with its value of the moment. At the first call that
finds a change it refuses, and after its end or a refusal it stays over.
-/

namespace Scriptlet

namespace Heap

/-- What a walk checks before each visit: the length of an array, the version of a dictionary. -/
def stamp (h : Heap) : Container → Nat
  | .array r => (h.array r).size
  | .dict r => (h.dict r).version

/-- The keys of a container in the order of visits. -/
def listing (h : Heap) : Container → List Value
  | .array r => (List.range (h.array r).size).map fun i ↦ .int (Int64.ofNat i)
  | .dict r => (h.dict r).keys.map Key.toValue

/-- The value `v` is what a container holds for the visit number `i`, which has the key `key`;
it is read from a place inside the container. -/
def HoldsAt (h : Heap) (c : Container) (i : Nat) (key v : Value) : Prop :=
  match c with
  | .array r => (h.array r)[i]? = some v
  | .dict r => ∃ (k : Key) (p : Nat), key = k.toValue ∧ (h.dict r).find? k = some v ∧
      (h.dict r).slots[p]? = some ⟨k, v, true⟩

end Heap

/-- A heap with walks under way, numbered in the order of their starts. -/
structure Scene where
  heap : Heap := {}
  walks : List Walk := []

/-- What happens in a scene. -/
inductive Move where
  | operate (op : Heap.Operation)
  | start (c : Container) (location : Location)
  | next (i : Nat)

/-- A call for the next visit of a walk: the heap it found, what it gave, and whether the walk
is over after it. -/
structure Call where
  walk : Nat
  heap : Heap
  visit : Visit
  ended : Bool

namespace Scene

/-- The calls that a move makes, and the scene after it. -/
def step (s : Scene) : Move → List Call × Scene
  | .operate op => ([], { s with heap := (s.heap.operate op).2 })
  | .start c location =>
    match Walk.start s.heap c.handle location with
    | .ok w => ([], { s with walks := s.walks ++ [w] })
    | .error _ => ([], s)
  | .next i =>
    match s.walks[i]? with
    | some w =>
      ([⟨i, s.heap, (w.next s.heap).1, (w.next s.heap).2.exhausted⟩],
        { s with walks := s.walks.set i (w.next s.heap).2 })
    | none => ([], s)

/-- The calls of moves one after the other, and the scene after them. -/
def run (s : Scene) : List Move → List Call × Scene
  | [] => ([], s)
  | move :: moves =>
    let (calls, s) := s.step move
    let (rest, s) := s.run moves
    (calls ++ rest, s)

end Scene

/-- How the calls of one walk over `c` go, from `i` visits on, if it was started on the heap
`h₀`. -/
inductive Course (h₀ : Heap) (c : Container) : Nat → List Call → Prop where
  | nil (i : Nat) : Course h₀ c i []
  /-- The container has its old stamp, and there is a key left. -/
  | entry (i : Nat) (call : Call) (rest : List Call) (key v : Value)
      (same : call.heap.stamp c = h₀.stamp c) (listed : (h₀.listing c)[i]? = some key)
      (holds : call.heap.HoldsAt c i key v) (visit : call.visit = .entry key v)
      (goes : call.ended = false) (onward : Course h₀ c (i + 1) rest) : Course h₀ c i (call :: rest)
  /-- The container has its old stamp, and every key has been visited. -/
  | finished (i : Nat) (call : Call) (rest : List Call)
      (same : call.heap.stamp c = h₀.stamp c) (all : i = (h₀.listing c).length)
      (visit : call.visit = .finished) (ended : call.ended = true)
      (after : ∀ x ∈ rest, x.visit = .finished ∧ x.ended = true) : Course h₀ c i (call :: rest)
  /-- The container has another stamp. -/
  | invalidated (i : Nat) (call : Call) (rest : List Call) (cause : Cause)
      (differs : call.heap.stamp c ≠ h₀.stamp c) (kind : cause.kind = .iterationInvalidated)
      (visit : call.visit = .invalidated cause) (ended : call.ended = true)
      (after : ∀ x ∈ rest, x.visit = .finished ∧ x.ended = true) : Course h₀ c i (call :: rest)

namespace Walk

/-- A walk over `c` that was started on the heap `h₀` and has made `i` visits since. -/
structure Reached (h₀ : Heap) (c : Container) (i : Nat) (w : Walk) : Prop where
  running : w.exhausted = false
  cursor : match c with
    | .array r => w.cursor = .array r (h₀.array r).size i ∧ i ≤ (h₀.array r).size
    | .dict r => ∃ p, w.cursor = .dict r (h₀.dict r).version p ∧ (h₀.dict r).liveBefore p = i

/-- A walk starts with no visit made. -/
theorem start_reached (h : Heap) (c : Container) (location : Location) :
    ∃ w, Walk.start h c.handle location = .ok w ∧ w.Reached h c 0 := by
  cases c with
  | array r => exact ⟨_, rfl, rfl, rfl, Nat.zero_le _⟩
  | dict r => exact ⟨_, rfl, rfl, 0, rfl, Dictionary.liveBefore_zero _⟩

/-- How a call for the next visit goes, if `i` visits have been made since the heap `h₀`. -/
def Proceeds (h₀ h : Heap) (c : Container) (i : Nat) (w : Walk) : Prop :=
  (h.stamp c ≠ h₀.stamp c ∧ ∃ cause : Cause, cause.kind = .iterationInvalidated ∧
      w.next h = (.invalidated cause, { w with exhausted := true })) ∨
    (h.stamp c = h₀.stamp c ∧ i = (h₀.listing c).length ∧
      w.next h = (.finished, { w with exhausted := true })) ∨
    (h.stamp c = h₀.stamp c ∧ ∃ key v w', (h₀.listing c)[i]? = some key ∧ h.HoldsAt c i key v ∧
      w.next h = (.entry key v, w') ∧ w'.Reached h₀ c (i + 1))

private theorem proceeds_array (h₀ h : Heap) (r : ArrayRef) (i : Nat) (w : Walk)
    (hr : w.Reached h₀ (.array r) i) : w.Proceeds h₀ h (.array r) i := by
  obtain ⟨hcur, hi⟩ := hr.cursor
  by_cases hs : (h.array r).size = (h₀.array r).size
  · right
    cases he : (h.array r)[i]? with
    | none =>
      left
      have hle := Array.getElem?_eq_none_iff.mp he
      refine ⟨hs, ?_, ?_⟩
      · rw [Heap.listing, List.length_map, List.length_range]
        omega
      · simp [next, hr.running, hcur, Cursor.advance, hs, he]
    | some v =>
      right
      have hlt := (Array.getElem?_eq_some_iff.mp he).1
      refine ⟨hs, .int (Int64.ofNat i), v, { w with cursor := .array r (h₀.array r).size (i + 1) },
        ?_, he, ?_, hr.running, rfl, by omega⟩
      · rw [Heap.listing, List.getElem?_map, List.getElem?_range (by omega)]
        rfl
      · simp [next, hr.running, hcur, Cursor.advance, hs, he]
  · left
    refine ⟨hs, .lengthChanged (h₀.array r).size (h.array r).size, rfl, ?_⟩
    simp [next, hr.running, hcur, Cursor.advance, hs]

private theorem proceeds_dict (h₀ h : Heap) (r : DictRef) (i : Nat) (w : Walk)
    (hw : (h.dict r).Coherent) (hl : (h₀.dict r).Later (h.dict r))
    (hr : w.Reached h₀ (.dict r) i) : w.Proceeds h₀ h (.dict r) i := by
  obtain ⟨p, hcur, hp⟩ := hr.cursor
  by_cases hs : (h.dict r).version = (h₀.dict r).version
  · right
    -- With the version the shape is the old one, and so are the keys and the count of visits.
    have hshape := hl.shape_eq hs
    have hkeys : (h₀.dict r).keys = (h.dict r).keys := by
      rw [Dictionary.keys_eq_shape, Dictionary.keys_eq_shape, hshape]
    have hbefore (q : Nat) : (h₀.dict r).liveBefore q = (h.dict r).liveBefore q := by
      rw [Dictionary.liveBefore, Dictionary.liveBefore, hshape]
    rw [hbefore] at hp
    cases he : Cursor.nextLive (h.dict r).slots p with
    | none =>
      left
      refine ⟨hs, ?_, ?_⟩
      · rw [Heap.listing, List.length_map, hkeys, ← hp]
        exact Cursor.nextLive_eq_none _ p he
      · simp [next, hr.running, hcur, Cursor.advance, hs, he]
    | some found =>
      right
      obtain ⟨q, s⟩ := found
      obtain ⟨hq, hlive, hb⟩ := Cursor.nextLive_eq_some _ p q s he
      rw [hp] at hb
      refine ⟨hs, s.key.toValue, s.value,
        { w with cursor := .dict r (h₀.dict r).version (q + 1) }, ?_, ?_, ?_,
        hr.running, q + 1, rfl, ?_⟩
      · rw [Heap.listing, List.getElem?_map, hkeys, ← hb,
          Dictionary.getElem?_keys_of_live _ q s hq hlive]
        rfl
      · refine ⟨s.key, q, rfl, hw.find?_of_live q s hq hlive, ?_⟩
        rw [hq, ← hlive]
      · simp [next, hr.running, hcur, Cursor.advance, hs, he]
      · rw [hbefore, Dictionary.liveBefore_succ_of_live _ q s hq hlive, hb]
  · left
    refine ⟨hs, .keysChanged, rfl, ?_⟩
    simp [next, hr.running, hcur, Cursor.advance, hs]

/-- A walk goes on as it should on every later heap. -/
theorem Reached.proceeds {h₀ h : Heap} {c : Container} {i : Nat} {w : Walk}
    (hr : w.Reached h₀ c i) (hc : h₀.Has c) (hl : h₀.Later h) (hw : h.WF) :
    w.Proceeds h₀ h c i := by
  cases c with
  | array r => exact proceeds_array h₀ h r i w hr
  | dict r => exact proceeds_dict h₀ h r i w (hw r).toCoherent (hl.dict r hc) hr

/-- The calls of a walk that is asked on one heap after the other. -/
def calls (number : Nat) (w : Walk) : List Heap → List Call
  | [] => []
  | h :: hs => ⟨number, h, (w.next h).1, (w.next h).2.exhausted⟩ :: calls number (w.next h).2 hs

private theorem calls_of_exhausted (number : Nat) (w : Walk) (hw : w.exhausted = true)
    (hs : List Heap) : ∀ x ∈ calls number w hs, x.visit = .finished ∧ x.ended = true := by
  induction hs with
  | nil => simp [calls]
  | cons h hs ih =>
    rw [calls, next_of_exhausted h w hw]
    intro x hx
    rcases List.mem_cons.mp hx with rfl | hx
    · exact ⟨rfl, hw⟩
    · exact ih x hx

/-- A walk asked on later heaps takes its course. -/
theorem Reached.course {h₀ : Heap} {c : Container} {i : Nat} {w : Walk} (hr : w.Reached h₀ c i)
    (hc : h₀.Has c) (number : Nat) (hs : List Heap) (hl : ∀ h ∈ hs, h₀.Later h ∧ h.WF) :
    Course h₀ c i (calls number w hs) := by
  induction hs generalizing i w with
  | nil => exact .nil i
  | cons h hs ih =>
    have hrest := fun k hk ↦ hl k (List.mem_cons_of_mem _ hk)
    obtain ⟨hlater, hwf⟩ := hl h List.mem_cons_self
    rw [calls]
    rcases hr.proceeds hc hlater hwf with
      ⟨hd, cause, hk, he⟩ | ⟨hd, hi, he⟩ | ⟨hd, key, v, w', hk, hv, he, hr'⟩
    · rw [he]
      exact .invalidated i _ _ cause hd hk rfl rfl (calls_of_exhausted number _ rfl hs)
    · rw [he]
      exact .finished i _ _ hd hi rfl rfl (calls_of_exhausted number _ rfl hs)
    · rw [he]
      exact .entry i _ _ key v hd hk hv rfl hr'.running (ih hr' hrest)

end Walk

namespace Scene

/-- Every move keeps the heap of a scene well formed. -/
theorem wf_step (s : Scene) (hw : s.heap.WF) (move : Move) : (s.step move).2.heap.WF := by
  cases move with
  | operate op => exact hw.operate op
  | start c location =>
    simp only [step]
    split <;> exact hw
  | next i =>
    simp only [step]
    split <;> exact hw

/-- Every run keeps the heap of a scene well formed. -/
theorem wf_run (s : Scene) (hw : s.heap.WF) (moves : List Move) : (s.run moves).2.heap.WF := by
  induction moves generalizing s with
  | nil => exact hw
  | cons move moves ih => exact ih _ (s.wf_step hw move)

private theorem filter_run (s : Scene) (hw : s.heap.WF) (i : Nat) (w : Walk)
    (hi : s.walks[i]? = some w) (moves : List Move) :
    ∃ hs, (∀ h ∈ hs, s.heap.Later h ∧ h.WF) ∧
      (s.run moves).1.filter (·.walk = i) = w.calls i hs := by
  induction moves generalizing s w with
  | nil => exact ⟨[], by simp, rfl⟩
  | cons move moves ih =>
    cases move with
    | operate op =>
      have hlater := Heap.later_operate s.heap op
      obtain ⟨hs, hl, he⟩ := ih { s with heap := (s.heap.operate op).2 } (hw.operate op) w hi
      exact ⟨hs, fun h hh ↦ ⟨hlater.trans (hl h hh).1, (hl h hh).2⟩, he⟩
    | start c location =>
      obtain ⟨w', hstart, -⟩ := Walk.start_reached s.heap c location
      have hi' : (s.walks ++ [w'])[i]? = some w := by
        rw [List.getElem?_append_left (List.getElem?_eq_some_iff.mp hi).1]
        exact hi
      obtain ⟨hs, hl, he⟩ := ih { s with walks := s.walks ++ [w'] } hw w hi'
      refine ⟨hs, hl, ?_⟩
      rw [run, step, hstart]
      exact he
    | next k =>
      rw [run, step]
      cases hk : s.walks[k]? with
      | none => exact ih s hw w hi
      | some w' =>
        by_cases hki : k = i
        · subst hki
          have hww : w' = w := Option.some.inj (hk.symm.trans hi)
          subst hww
          have hi' : (s.walks.set k (w'.next s.heap).2)[k]? = some (w'.next s.heap).2 :=
            List.getElem?_set_self (List.getElem?_eq_some_iff.mp hi).1
          obtain ⟨hs, hl, he⟩ := ih { s with walks := s.walks.set k (w'.next s.heap).2 } hw _ hi'
          refine ⟨s.heap :: hs, ?_, ?_⟩
          · intro h hh
            rcases List.mem_cons.mp hh with rfl | hh
            · exact ⟨Heap.Later.refl _, hw⟩
            · exact hl h hh
          · simp only [List.singleton_append, List.filter_cons, decide_true, if_true, Walk.calls]
            rw [← he]
        · have hi' : (s.walks.set k (w'.next s.heap).2)[i]? = some w := by
            rw [List.getElem?_set_ne hki]
            exact hi
          obtain ⟨hs, hl, he⟩ := ih { s with walks := s.walks.set k (w'.next s.heap).2 } hw w hi'
          refine ⟨hs, hl, ?_⟩
          simp only [List.singleton_append, List.filter_cons, hki, decide_false, Bool.false_eq_true,
            if_false]
          exact he

/-- Asking a walk changes no container, and a walk that is started anywhere in a history takes
its course whatever happens to the containers and to the walks beside it. -/
theorem run_start_course (before after : List Move) (c : Container) (location : Location)
    (hc : (run {} before).2.heap.Has c) :
    let s := (run {} before).2
    let calls := ((s.step (.start c location)).2.run after).1
    (∀ i, (s.step (.next i)).2.heap = s.heap) ∧
      Course s.heap c 0 (calls.filter (·.walk = s.walks.length)) := by
  intro s calls
  constructor
  · intro i
    simp only [step]
    split <;> rfl
  · have hw : s.heap.WF := wf_run {} Heap.wf_empty before
    obtain ⟨w, hstart, hr⟩ := Walk.start_reached s.heap c location
    have hs : (s.step (.start c location)).2 = { s with walks := s.walks ++ [w] } := by
      rw [step, hstart]
    have hi : (s.walks ++ [w])[s.walks.length]? = some w := List.getElem?_concat_length
    obtain ⟨hs', hl, he⟩ := filter_run { s with walks := s.walks ++ [w] } hw _ w hi after
    have hcalls : calls = (({ s with walks := s.walks ++ [w] } : Scene).run after).1 := by
      rw [← hs]
    rw [hcalls, he]
    exact hr.course hc _ hs' hl

/-- A walk over a dictionary of one entry that is given a second one after the first visit. -/
theorem run_start_course_insert :
    let before := [.operate .newDict, .operate (.onDict ⟨0⟩ (.set (.str "a") (.int 1)))]
    let after := [.next 0, .operate (.onDict ⟨0⟩ (.set (.str "b") (.int 2))), .next 0, .next 0]
    let s := (run {} before).2
    let calls := ((s.step (.start (.dict ⟨0⟩) {})).2.run after).1
    s.heap.Has (.dict ⟨0⟩) ∧ calls.length = 3 ∧
      (∀ i, (s.step (.next i)).2.heap = s.heap) ∧
      Course s.heap (.dict ⟨0⟩) 0 (calls.filter (·.walk = s.walks.length)) :=
  ⟨Nat.zero_lt_one, rfl, run_start_course _ _ (.dict ⟨0⟩) {} Nat.zero_lt_one⟩

end Scene
end Scriptlet
