import Mathlib.Logic.Relator
import Scriptlet.Evaluation.Interpreter
import Scriptlet.Proofs.Evaluation.Plan
import Scriptlet.Proofs.Locality.Growth

/-!
# What can be read off linked heaps

Nothing that a script can find out about its values depends on addresses: texts, sizes, elements,
results of operators and visits of walks are alike if the heaps are linked and the values alike.
-/

namespace Scriptlet

variable {π : Pairing} {h k : Heap}

namespace Heap.Linked

variable {a a' b b' v w : Value}

private theorem biUnique (hl : Heap.Linked π h k) : Relator.BiUnique π :=
  ⟨fun _ _ _ hp hp' ↦ hl.left_unique hp' hp, fun _ _ _ hp hp' ↦ hl.right_unique hp' hp⟩

/-- Alike values have the same text, under containers that are paired one by one. -/
theorem renderNested_eq (hl : Heap.Linked π h k) (room : Nat) {path path' : List Container}
    (hpath : List.Forall₂ π path path') (hv : Alike π v w) :
    k.renderNested room path' w = h.renderNested room path v := by
  induction room generalizing path path' v w with
  | zero => cases hv <;> rfl
  | succ room ih =>
    cases hv with
    | none | bool | int | str => rfl
    | @array r s paired =>
      have hmem := List.rel_mem hl.biUnique paired hpath
      simp only [renderNested]
      by_cases hp : Container.array r ∈ path
      · rw [if_pos hp, if_pos (hmem.mp hp)]
      · rw [if_neg hp, if_neg fun hp' ↦ hp (hmem.mpr hp')]
        rw [map_eq_of_related (hl.array paired) fun _ _ hv ↦ (ih (.cons paired hpath) hv).symm]
    | @dict r s paired =>
      have hmem := List.rel_mem hl.biUnique paired hpath
      simp only [renderNested]
      by_cases hp : Container.dict r ∈ path
      · rw [if_pos hp, if_pos (hmem.mp hp)]
      · rw [if_neg hp, if_neg fun hp' ↦ hp (hmem.mpr hp')]
        rw [map_eq_of_related (hl.dict paired).entries]
        rintro ⟨key, v⟩ ⟨key', w⟩ ⟨hkey, hv⟩
        cases hkey
        exact congrArg (key.text ++ ": " ++ ·) (ih (.cons paired hpath) hv).symm

/-- Alike values have the same debug text. -/
theorem debugText_eq (hl : Heap.Linked π h k) (hv : Alike π v w) :
    k.debugText w = h.debugText v := hl.renderNested_eq maxRenderDepth .nil hv

/-- Alike values are printed alike. -/
theorem displayText_eq (hl : Heap.Linked π h k) (hv : Alike π v w) :
    k.displayText w = h.displayText v := by
  have ht := hl.debugText_eq hv
  cases hv with
  | str => rfl
  | _ => exact ht

/-- Alike values are equal to alike values or not. -/
theorem equals_eq (hl : Heap.Linked π h k) (ha : Alike π a a') (hb : Alike π b b') :
    a'.equals b' = a.equals b := by
  rw [Bool.eq_iff_iff, Value.equals_iff, Value.equals_iff]
  cases ha with
  | array paired =>
    cases hb with
    | array paired' =>
      constructor
      · rintro ⟨⟩
        exact congrArg Container.handle (hl.left_unique paired' paired)
      · rintro ⟨⟩
        exact congrArg Container.handle (hl.right_unique paired' paired)
    | _ => exact iff_of_false Value.noConfusion Value.noConfusion
  | dict paired =>
    cases hb with
    | dict paired' =>
      constructor
      · rintro ⟨⟩
        exact congrArg Container.handle (hl.left_unique paired' paired)
      · rintro ⟨⟩
        exact congrArg Container.handle (hl.right_unique paired' paired)
    | _ => exact iff_of_false Value.noConfusion Value.noConfusion
  | _ => cases hb <;> simp

private theorem add_eq (hl : Heap.Linked π h k) (ha : Alike π a a') (hb : Alike π b b') :
    k.add a' b' = h.add a b := by
  have hta := hl.displayText_eq ha
  have htb := hl.displayText_eq hb
  cases ha <;> cases hb <;> simp only [Heap.add, hta, htb, Value.type]

/-- A binary operator gives the same on alike values. -/
theorem binary_eq (hl : Heap.Linked π h k) (op : Bytes) (ha : Alike π a a')
    (hb : Alike π b b') : k.binary op a' b' = h.binary op a b := by
  have hadd := hl.add_eq ha hb
  have hequals := hl.equals_eq ha hb
  unfold Heap.binary
  cases BinaryOp.ofText? op with
  | none => cases ha <;> cases hb <;> rfl
  | some known =>
    cases known with
    | add => exact hadd
    | equal | notEqual => simp only [hequals]
    | _ => cases ha <;> cases hb <;> rfl

end Heap.Linked

section Scalars

variable {a b v w : Value} {op : Bytes}

private theorem container?_of_onInts {op : BinaryOp} {m n : Int64} (hv : op.onInts m n = .ok v) :
    v.container? = none := by
  cases op <;> grind [BinaryOp.onInts, Value.container?]

private theorem container?_of_onBools? {op : BinaryOp} {p q : Bool}
    (hv : op.onBools? p q = some v) : v.container? = none := by
  cases op <;> grind [BinaryOp.onBools?, Value.container?]

private theorem container?_of_onTexts? {op : BinaryOp} {s t : Bytes}
    (hv : op.onTexts? s t = some v) : v.container? = none := by
  cases op <;> grind [BinaryOp.onTexts?, Value.container?]

/-- A plus gives no handle. -/
theorem Heap.container?_of_add (hv : h.add a b = .ok v) : v.container? = none := by
  cases a <;> cases b <;> grind [Heap.add, container?_of_onInts, Value.container?]

private theorem eq_some_of_getD {x : Option Value} {cause : Cause}
    (hv : (x.map Except.ok).getD (.error cause) = .ok v) : x = some v := by
  cases x with
  | none => cases hv
  | some w =>
    cases hv
    rfl

/-- A binary operator gives no handle. -/
theorem Heap.container?_of_binary (hv : h.binary op a b = .ok v) : v.container? = none := by
  unfold Heap.binary at hv
  split at hv
  · exact Heap.container?_of_add hv
  · cases hv
    rfl
  · cases hv
    rfl
  · split at hv
    · split at hv
      · exact container?_of_onInts hv
      · cases hv
    · obtain ⟨known, -, hk⟩ := Option.bind_eq_some_iff.mp (eq_some_of_getD hv)
      exact container?_of_onBools? hk
    · obtain ⟨known, -, hk⟩ := Option.bind_eq_some_iff.mp (eq_some_of_getD hv)
      exact container?_of_onTexts? hk
    · cases hv

/-- A unary operator gives no handle. -/
theorem Value.container?_of_unary (hv : a.unary op = .ok v) : v.container? = none := by
  cases a <;> grind [Value.unary, negateInt, Value.container?]

private theorem alike_of_container? {x : Except Cause Value}
    (hx : ∀ v, x = .ok v → v.container? = none) : Alike π x x := by
  cases x with
  | ok v => exact .ok (Value.alike_self (hx v rfl))
  | error cause => exact .error cause

/-- A unary operator gives the same on alike values. -/
theorem Value.Alike.unary (hv : Alike π v w) (op : Bytes) :
    Pairable.Alike π (v.unary op) (w.unary op) := by
  have heq : w.unary op = v.unary op := by cases hv <;> rfl
  rw [heq]
  exact alike_of_container? fun _ ↦ Value.container?_of_unary

/-- Alike values stand for the same key. -/
theorem Value.Alike.dictKey_eq (hv : Alike π v w) : dictKey w = dictKey v := by
  cases hv <;> rfl

private theorem Value.Alike.arrayPosition_eq (hv : Alike π v w) (length : Nat) :
    arrayPosition length w = arrayPosition length v := by
  cases hv <;> rfl

end Scalars

namespace Heap.Linked

variable {a a' b b' v w : Value}

/-- A binary operator is like itself. -/
theorem binary (hl : Heap.Linked π h k) (op : Bytes) (ha : Alike π a a') (hb : Alike π b b') :
    Alike π (h.binary op a b) (k.binary op a' b') := by
  rw [hl.binary_eq op ha hb]
  exact alike_of_container? fun _ ↦ Heap.container?_of_binary

/-- So is what an assignment operator computes. -/
theorem combine (hl : Heap.Linked π h k) (op : AssignOp) (ha : Alike π a a')
    (hb : Alike π b b') : Alike π (op.combine h a b) (op.combine k a' b') := by
  cases op with
  | plain => exact .ok hb
  | compound op => exact hl.binary op.text ha hb

/-- Paired arrays have the same size. -/
theorem size_array (hl : Heap.Linked π h k) {r s : ArrayRef} (hp : π (.array r) (.array s)) :
    (k.array s).size = (h.array r).size := (hl.array hp).length_eq.symm

private theorem getElem?_array (hl : Heap.Linked π h k) {r s : ArrayRef}
    (hp : π (.array r) (.array s)) (i : Nat) : Alike π (h.array r)[i]? (k.array s)[i]? := by
  rw [← Array.getElem?_toList, ← Array.getElem?_toList]
  exact forall₂_getElem? (hl.array hp) i

/-- What is read from alike values at alike indices is alike. -/
theorem read (hl : Heap.Linked π h k) (hc : Alike π a a') (hv : Alike π b b') :
    Alike π (h.read a b) (k.read a' b') := by
  cases hc with
  | @array r s paired =>
    simp only [Heap.read, hv.arrayPosition_eq, hl.size_array paired]
    cases arrayPosition (h.array r).size b with
    | error cause => exact .error cause
    | ok i =>
      have hi := hl.getElem?_array paired i
      simp only [Bind.bind, Except.bind, Array.getD_eq_getD_getElem?]
      generalize (h.array r)[i]? = x at hi
      generalize (k.array s)[i]? = y at hi
      cases hi with
      | some hi => exact .ok hi
      | none => exact .ok .none
  | @dict r s paired =>
    simp only [Heap.read, hv.dictKey_eq]
    cases dictKey b with
    | error cause => exact .error cause
    | ok key =>
      have hd := hl.dict paired
      have hf := hd.find? key
      simp only [Bind.bind, Except.bind, hd.size]
      generalize (h.dict r).find? key = x at hf
      generalize (k.dict s).find? key = y at hf
      cases hf with
      | some hf => exact .ok hf
      | none => exact .error _
  | _ => exact .error _

/-- What is written to alike values at alike indices fails alike, or changes paired containers
alike. -/
theorem write (hl : Heap.Linked π h k) (hc : Alike π a a') (hkey : Alike π b b')
    (hv : Alike π v w) :
    (∃ cause, h.write a b v = .error cause ∧ k.write a' b' w = .error cause) ∨
      ∃ h' k', h.write a b v = .ok h' ∧ k.write a' b' w = .ok k' ∧ Grown π h k π h' k' ∧
        Heap.Linked π h' k' := by
  cases hc with
  | @array r s paired =>
    simp only [Heap.write, hkey.arrayPosition_eq, hl.size_array paired]
    cases arrayPosition (h.array r).size b with
    | error cause => exact Or.inl ⟨cause, rfl, rfl⟩
    | ok i =>
      refine Or.inr ⟨_, _, rfl, rfl, hl.modifyArray paired ?_⟩
      rw [Array.toList_setIfInBounds, Array.toList_setIfInBounds, List.set_eq_modify,
        List.set_eq_modify]
      exact forall₂_modify (hl.array paired) (fun _ _ _ ↦ hv) i
  | @dict r s paired =>
    simp only [Heap.write, hkey.dictKey_eq]
    cases dictKey b with
    | error cause => exact Or.inl ⟨cause, rfl, rfl⟩
    | ok key =>
      exact Or.inr ⟨_, _, rfl, rfl, hl.modifyDict paired ((hl.dict paired).set key hv)⟩
  | _ => exact Or.inl ⟨_, rfl, rfl⟩

end Heap.Linked

section Walks

/-- Cursors are alike if they go over the same scalar or over paired containers, and have come
equally far. -/
inductive Cursor.Alike (π : Pairing) : Cursor → Cursor → Prop where
  | array {r s : ArrayRef} (paired : π (.array r) (.array s)) (length position : Nat) :
      Alike π (.array r length position) (.array s length position)
  | dict {r s : DictRef} (paired : π (.dict r) (.dict s)) (version position : Nat) :
      Alike π (.dict r version position) (.dict s version position)
  | text (rest : Bytes) (ordinal : Nat) : Alike π (.text rest ordinal) (.text rest ordinal)
  | count (bound : Int64) (position : Nat) : Alike π (.count bound position) (.count bound position)

/-- Walks are alike if their cursors are. -/
structure Walk.Alike (π : Pairing) (w w' : Walk) : Prop where
  cursor : w.cursor.Alike π w'.cursor
  location : w'.location = w.location
  exhausted : w'.exhausted = w.exhausted

private theorem Cursor.Alike.mono {π' : Pairing} {c c' : Cursor} (hc : c.Alike π c')
    (hle : π ≤ π') : c.Alike π' c' := by
  cases hc with
  | array paired length position => exact .array (hle _ _ paired) length position
  | dict paired version position => exact .dict (hle _ _ paired) version position
  | text rest ordinal => exact .text rest ordinal
  | count bound position => exact .count bound position

instance : Pairable Walk where
  Alike := Walk.Alike
  mono hle h := ⟨h.cursor.mono hle, h.location, h.exhausted⟩

/-- Visits are alike if they are of alike entries, or none for the same reason. -/
inductive Visit.Alike (π : Pairing) : Visit → Visit → Prop where
  | entry {key key' v v' : Value} (key_alike : Pairable.Alike π key key')
      (value_alike : Pairable.Alike π v v') : Alike π (.entry key v) (.entry key' v')
  | finished : Alike π .finished .finished
  | invalidated (cause : Cause) : Alike π (.invalidated cause) (.invalidated cause)

variable {v v' : Value} {w w' : Walk} {c c' : Cursor}

/-- Alike walks go over dictionaries or not. -/
theorem Walk.Alike.overDict_eq (hw : w.Alike π w') : w'.overDict = w.overDict := by
  have hc := hw.cursor
  simp only [Walk.overDict]
  generalize w.cursor = c at hc
  generalize w'.cursor = c' at hc
  cases hc <;> rfl

private theorem nextLive_alike {ss ts : Array Slot}
    (hst : List.Forall₂ (Slot.Alike π) ss.toList ts.toList) (i : Nat) :
    Option.Rel (fun p q ↦ q.1 = p.1 ∧ p.2.Alike π q.2) (Cursor.nextLive ss i)
      (Cursor.nextLive ts i) := by
  have hsize : ts.size = ss.size := hst.length_eq.symm
  have hslot (i : Nat) (hs : i < ss.size) (ht : i < ts.size) : ss[i].Alike π ts[i] := by
    have hi := forall₂_getElem? hst i
    rw [Array.getElem?_toList, Array.getElem?_toList, Array.getElem?_eq_getElem hs,
      Array.getElem?_eq_getElem ht] at hi
    cases hi with
    | some hi => exact hi
  fun_induction Cursor.nextLive ss i with
  | case1 i hi live =>
    have hi' : i < ts.size := hsize ▸ hi
    have hs := hslot i hi hi'
    rw [Cursor.nextLive, dif_pos hi', if_pos (hs.live.trans live)]
    exact .some ⟨rfl, hs⟩
  | case2 i hi dead ih =>
    have hi' : i < ts.size := hsize ▸ hi
    rw [Cursor.nextLive.eq_def ts, dif_pos hi',
      if_neg fun live ↦ dead ((hslot i hi hi').live ▸ live)]
    exact ih
  | case3 i hi =>
    rw [Cursor.nextLive, dif_neg (hsize ▸ hi)]
    exact .none

namespace Heap.Linked

/-- Walks over alike values are alike, if they start at all. -/
theorem start (hl : Heap.Linked π h k) (hv : Alike π v v') (l : Location) :
    Alike π (Walk.start h v l) (Walk.start k v' l) := by
  have hsome {c c' : Cursor} (hc : c.Alike π c') :
      Alike π (.ok { cursor := c, location := l } : Except ScriptError Walk)
        (.ok { cursor := c', location := l }) := .ok ⟨hc, rfl, rfl⟩
  cases hv with
  | none => exact .error _
  | bool b => exact .error _
  | int n => exact hsome (.count n 0)
  | str s => exact hsome (.text s 0)
  | array paired =>
    simp only [Walk.start, Cursor.start?, hl.size_array paired]
    exact hsome (.array paired _ 0)
  | dict paired =>
    simp only [Walk.start, Cursor.start?, (hl.dict paired).version]
    exact hsome (.dict paired _ 0)

/-- Alike cursors visit alike entries, and are alike behind them. -/
theorem advance (hl : Heap.Linked π h k) (hc : c.Alike π c') :
    (c.advance h).1.Alike π (c'.advance k).1 ∧ (c.advance h).2.Alike π (c'.advance k).2 := by
  cases hc with
  | @array r s paired length i =>
    have hi := hl.getElem?_array paired i
    simp only [Cursor.advance, hl.size_array paired]
    generalize (h.array r)[i]? = x at hi ⊢
    generalize (k.array s)[i]? = y at hi ⊢
    split
    · exact ⟨.invalidated _, .array paired _ _⟩
    · cases hi with
      | none => exact ⟨.finished, .array paired _ _⟩
      | some hv => exact ⟨.entry (.int _) hv, .array paired _ _⟩
  | @dict r s paired version i =>
    have hd := hl.dict paired
    have hi := nextLive_alike hd.slots i
    simp only [Cursor.advance, hd.version]
    generalize Cursor.nextLive (h.dict r).slots i = x at hi ⊢
    generalize Cursor.nextLive (k.dict s).slots i = y at hi ⊢
    split
    · exact ⟨.invalidated _, .dict paired _ _⟩
    · cases hi with
      | none => exact ⟨.finished, .dict paired _ _⟩
      | @some p q hslot =>
        obtain ⟨j, slot⟩ := p
        obtain ⟨j', slot'⟩ := q
        obtain ⟨rfl, hslot⟩ := hslot
        refine ⟨.entry ?_ hslot.value, .dict paired _ _⟩
        rw [hslot.key]
        exact Value.alike_self (by cases slot.key <;> rfl)
  | text rest ordinal =>
    cases rest with
    | nil => exact ⟨.finished, .text _ _⟩
    | cons lead tail => exact ⟨.entry (.int _) (.str _), .text _ _⟩
  | count bound i =>
    simp only [Cursor.advance]
    split
    · exact ⟨.entry (.int _) (.int _), .count _ _⟩
    · exact ⟨.finished, .count _ _⟩

/-- So do alike walks. -/
theorem next (hl : Heap.Linked π h k) (hw : Alike π w w') :
    (w.next h).1.Alike π (w'.next k).1 ∧ (w.next h).2.Alike π (w'.next k).2 := by
  obtain ⟨c, l, exhausted⟩ := w
  obtain ⟨c', l', exhausted'⟩ := w'
  obtain ⟨hc, rfl, rfl⟩ := hw
  obtain ⟨hvisit, hcursor⟩ := hl.advance hc
  simp only [Walk.next]
  split
  · exact ⟨.finished, hc, rfl, rfl⟩
  · generalize c.advance h = x at hvisit hcursor
    generalize c'.advance k = y at hvisit hcursor
    obtain ⟨visit, c₁⟩ := x
    obtain ⟨visit', c₁'⟩ := y
    cases hvisit with
    | entry hkey hv => exact ⟨.entry hkey hv, hcursor, rfl, rfl⟩
    | finished => exact ⟨.finished, hc, rfl, rfl⟩
    | invalidated cause => exact ⟨.invalidated cause, hc, rfl, rfl⟩

/-- What alike walks come to next is alike. -/
theorem visit? (hl : Heap.Linked π h k) (hw : Alike π w w') :
    Alike π (w.visit? h) (w'.visit? k) := by
  obtain ⟨hvisit, hwalk⟩ := hl.next hw
  have hlocation := Walk.Alike.location hw
  simp only [Walk.visit?]
  generalize w.next h = x at hvisit hwalk
  generalize w'.next k = y at hvisit hwalk
  obtain ⟨visit, w₁⟩ := x
  obtain ⟨visit', w₁'⟩ := y
  cases hvisit with
  | entry hkey hv => exact .ok (.some ⟨hkey, hv, hwalk⟩)
  | finished => exact .ok .none
  | invalidated cause =>
    rw [hlocation]
    exact .error _

end Heap.Linked
end Walks
end Scriptlet
