import Scriptlet.Error
import Scriptlet.Text.Utf8
import Scriptlet.Value.Heap

/-!
# Walks

A walk visits what a value holds, one pair of key and value at a time: the elements of an
array, the entries of a dictionary, the characters of a string, the numbers below an integer.
It remembers the length of its array or the version of its dictionary, and refuses to go on
once that has changed. A walk is over at its end and after a refusal.
-/

namespace Scriptlet

/-- What a walk goes over, and how far it has come. -/
inductive Cursor where
  /-- Next position in an array that had `length` elements at the start. -/
  | array (r : ArrayRef) (length position : Nat)
  /-- Next slot of a dictionary that had this version at the start. -/
  | dict (r : DictRef) (version position : Nat)
  /-- The text still to read, and the number of characters read. -/
  | text (rest : Bytes) (ordinal : Nat)
  /-- The next number below `bound`. -/
  | count (bound : Int64) (position : Nat)
  deriving DecidableEq

/-- One visit of a walk. -/
inductive Visit where
  | entry (key value : Value)
  | finished
  | invalidated (cause : Cause)
  deriving DecidableEq

/-- A walk that was started at a place in a script. -/
structure Walk where
  cursor : Cursor
  location : Location := {}
  exhausted : Bool := false
  deriving DecidableEq

namespace Cursor

/-- The start of a walk over a value; not every value can be walked. -/
def start? (h : Heap) : Value → Option Cursor
  | .array r => some (.array r (h.array r).size 0)
  | .dict r => some (.dict r (h.dict r).version 0)
  | .str s => some (.text s 0)
  | .int n => some (.count n 0)
  | _ => none

/-- The position of the first live slot from `i` on. -/
def nextLive (slots : Array Slot) (i : Nat) : Option (Nat × Slot) :=
  if h : i < slots.size then
    if slots[i].live then some (i, slots[i]) else nextLive slots (i + 1)
  else none
termination_by slots.size - i

/-- The next visit, and the cursor after it. -/
def advance (h : Heap) (c : Cursor) : Visit × Cursor :=
  match c with
  | .array r length i =>
    let elements := h.array r
    if elements.size ≠ length then (.invalidated (.lengthChanged length elements.size), c)
    else
      match elements[i]? with
      | none => (.finished, c)
      | some v => (.entry (.int (Int64.ofNat i)) v, .array r length (i + 1))
  | .dict r version i =>
    let d := h.dict r
    if d.version ≠ version then (.invalidated .keysChanged, c)
    else
      match nextLive d.slots i with
      | none => (.finished, c)
      | some (j, slot) => (.entry slot.key.toValue slot.value, .dict r version (j + 1))
  | .text rest ordinal =>
    match rest with
    | [] => (.finished, c)
    | lead :: tail =>
      (.entry (.int (Int64.ofNat ordinal)) (.str (Utf8.firstPiece lead tail)),
        .text (Utf8.afterFirst lead tail) (ordinal + 1))
  | .count bound i =>
    if i < bound.toNatClampNeg then
      (.entry (.int (Int64.ofNat i)) (.int (Int64.ofNat i)), .count bound (i + 1))
    else (.finished, c)

/-- The number of visits that a cursor can still make at most. -/
def remaining (h : Heap) : Cursor → Nat
  | .array r _ i => (h.array r).size - i
  | .dict r _ i => (h.dict r).slots.size - i
  | .text rest _ => rest.length
  | .count bound i => bound.toNatClampNeg - i

/-- A live slot found from `i` on lies between `i` and the end. -/
theorem nextLive_bounds (slots : Array Slot) (i j : Nat) (s : Slot)
    (h : nextLive slots i = some (j, s)) : i ≤ j ∧ j < slots.size := by
  fun_induction nextLive slots i with
  | case1 i hi hl =>
    simp only [Option.some.injEq, Prod.mk.injEq] at h
    omega
  | case2 i hi hl ih =>
    have hj := ih h
    omega
  | case3 i hi => exact absurd h (by simp)

/-- Each entry visited leaves fewer to visit. -/
theorem remaining_advance_lt (h : Heap) (c : Cursor) (k v : Value)
    (hv : (c.advance h).1 = .entry k v) : (c.advance h).2.remaining h < c.remaining h := by
  cases c with
  | array r length i =>
    simp only [advance] at hv ⊢
    split at hv
    · simp at hv
    · next hl =>
      cases he : (h.array r)[i]? with
      | none => simp [he] at hv
      | some x =>
        have hi : i < (h.array r).size := (Array.getElem?_eq_some_iff.mp he).1
        simp only [hl, ite_false, remaining]
        omega
  | dict r version i =>
    simp only [advance] at hv ⊢
    split at hv
    · simp at hv
    · next hl =>
      cases he : nextLive (h.dict r).slots i with
      | none => simp [he] at hv
      | some found =>
        have hj := nextLive_bounds _ _ found.1 found.2 he
        simp only [hl, ite_false, remaining]
        omega
  | text rest ordinal =>
    cases rest with
    | nil => simp [advance] at hv
    | cons lead tail => exact Utf8.length_afterFirst_lt lead tail
  | count bound i =>
    simp only [advance] at hv ⊢
    split at hv
    · next hi =>
      simp only [hi, ite_true, remaining]
      omega
    · simp at hv

end Cursor

namespace Walk

/-- A fresh walk over a value (specification §4.1). -/
def start (h : Heap) (v : Value) (location : Location) : Except ScriptError Walk :=
  match Cursor.start? h v with
  | some cursor => .ok { cursor, location }
  | none => .error { cause := .notIterable v.type, location }

/-- The next visit, and the walk after it (specification §4.1). A walk that is over stays over. -/
def next (h : Heap) (w : Walk) : Visit × Walk :=
  if w.exhausted then (.finished, w)
  else
    match w.cursor.advance h with
    | (.entry k v, cursor) => (.entry k v, { w with cursor })
    | (visit, _) => (visit, { w with exhausted := true })

/-- Every visit that is left, while nothing changes the heap. -/
def toList (h : Heap) (w : Walk) : Except ScriptError (List (Value × Value)) :=
  if w.exhausted then .ok []
  else go w.cursor
where
  /-- The visits from a cursor on. -/
  go (c : Cursor) : Except ScriptError (List (Value × Value)) :=
    match _hv : c.advance h with
    | (.entry k v, c') => return (k, v) :: (← go c')
    | (.finished, _) => .ok []
    | (.invalidated cause, _) => .error { cause, location := w.location }
  termination_by c.remaining h
  decreasing_by
    have hd := Cursor.remaining_advance_lt h c k v (by rw [_hv])
    rw [_hv] at hd
    exact hd

/-- A walk that is over yields nothing more. -/
theorem next_of_exhausted (h : Heap) (w : Walk) (hw : w.exhausted = true) :
    w.next h = (.finished, w) := by
  simp [next, hw]

end Walk
end Scriptlet
