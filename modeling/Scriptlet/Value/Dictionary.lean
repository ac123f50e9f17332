import Scriptlet.Value.Basic

/-!
# Dictionaries

A dictionary keeps its entries in the order in which their keys were first written. Entries
sit in slots that are only ever appended; overwriting a key leaves its slot in place, and
removing one leaves a dead slot behind, so that the others keep their positions. Dead slots
are squeezed out as soon as they outnumber the entries. The version counts the changes of
the key set, so a walk can notice them.
-/

namespace Scriptlet

/-- One place of a dictionary's slot list. A dead slot remembers its key and holds nothing. -/
structure Slot where
  key : Key
  value : Value
  live : Bool
  deriving DecidableEq

/-- A dictionary in the order of first writes (specification §3). -/
structure Dictionary where
  /-- Entries and dead slots, oldest first. -/
  slots : Array Slot := #[]
  /-- Position of each key's live slot. -/
  index : Std.TreeMap Key Nat := ∅
  /-- Number of entries. -/
  size : Nat := 0
  /-- Number of changes of the key set so far. -/
  version : Nat := 0

instance : Inhabited Dictionary where default := {}

namespace Dictionary

/-- The entries, oldest key first. -/
def entries (d : Dictionary) : List (Key × Value) :=
  (d.slots.toList.filter (·.live)).map fun s ↦ (s.key, s.value)

/-- The keys, oldest first. -/
def keys (d : Dictionary) : List Key := d.entries.map (·.1)

/-- The values in the order of their keys. -/
def values (d : Dictionary) : List Value := d.entries.map (·.2)

/-- Number of dead slots. -/
def tombstones (d : Dictionary) : Nat := d.slots.size - d.size

/-- Whether there is no entry. -/
def isEmpty (d : Dictionary) : Bool := d.size == 0

/-- Whether the key has an entry. -/
def contains (d : Dictionary) (k : Key) : Bool := d.index.contains k

/-- The value under a key. -/
def find? (d : Dictionary) (k : Key) : Option Value :=
  d.index[k]?.bind fun i ↦ d.slots[i]?.map (·.value)

/-- The slot list with another value in the slot at `i`. -/
def overwriteAt (d : Dictionary) (i : Nat) (v : Value) : Dictionary :=
  { d with slots := d.slots.modify i fun s ↦ { s with value := v } }

/-- The dictionary with one more entry at the end; `k` must be new. -/
def append (d : Dictionary) (k : Key) (v : Value) : Dictionary where
  slots := d.slots.push ⟨k, v, true⟩
  index := d.index.insert k d.slots.size
  size := d.size + 1
  version := d.version + 1

/-- Writes an entry (specification §3): over the old value if the key is present, else at the end.
The answer tells whether the key is new. -/
def put (d : Dictionary) (k : Key) (v : Value) : Bool × Dictionary :=
  match d.index[k]? with
  | some i => (false, d.overwriteAt i v)
  | none => (true, d.append k v)

/-- The dictionary after an entry is written. -/
def set (d : Dictionary) (k : Key) (v : Value) : Dictionary := (d.put k v).2

/-- Writes over the value of a key that is present; an absent key is left absent. -/
def overwrite (d : Dictionary) (k : Key) (v : Value) : Dictionary :=
  match d.index[k]? with
  | some i => d.overwriteAt i v
  | none => d

/-- The index with the position of every slot's key written over it, a later slot winning. -/
def reindex (index : Std.TreeMap Key Nat) (slots : List Slot) : Std.TreeMap Key Nat :=
  slots.zipIdx.foldl (fun index (s, i) ↦ index.insert s.key i) index

/-- Drops the dead slots and moves the entries together. -/
def compact (d : Dictionary) : Dictionary :=
  let kept := d.slots.filter (·.live)
  { d with slots := kept, index := reindex d.index kept.toList }

/-- Turns the slot at `i`, which holds `k`, into a dead one. -/
def kill (d : Dictionary) (k : Key) (i : Nat) : Dictionary where
  slots := d.slots.modify i fun s ↦ { s with value := .none, live := false }
  index := d.index.erase k
  size := d.size - 1
  version := d.version + 1

/-- Drops the dead slots once they outnumber the entries (specification §3). -/
def settle (d : Dictionary) : Dictionary := if d.size < d.tombstones then d.compact else d

/-- The value under a key and the dictionary without it (specification §3); nothing if the key is
absent. -/
def remove? (d : Dictionary) (k : Key) : Option (Value × Dictionary) :=
  match d.index[k]? with
  | none => none
  | some i => some ((d.slots[i]?.map (·.value)).getD .none, (d.kill k i).settle)

/-- Forgets every slot; this counts as one change of the key set. -/
def clear (d : Dictionary) : Dictionary := { version := d.version + 1 }

/-- The values in order behind those of `out`, and the emptied dictionary. -/
def takeValues (d : Dictionary) (out : List Value) : List Value × Dictionary :=
  (out ++ d.values, d.clear)

/-- Room for `n` entries; capacity is not part of a dictionary's state. -/
def reserve (d : Dictionary) (_n : Nat) : Dictionary := d

/-- An empty dictionary has no entry. -/
@[simp]
theorem entries_empty : ({} : Dictionary).entries = [] := rfl

/-- Appending puts the entry behind the others. -/
theorem entries_append (d : Dictionary) (k : Key) (v : Value) :
    (d.append k v).entries = d.entries ++ [(k, v)] := by
  simp [entries, append]

/-- Squeezing out dead slots keeps the entries and their order. -/
@[simp]
theorem entries_compact (d : Dictionary) : d.compact.entries = d.entries := by
  simp [entries, compact]

end Dictionary
end Scriptlet
