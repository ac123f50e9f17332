import Mathlib.Data.List.Forall2
import Mathlib.Data.Option.Basic
import Mathlib.Order.Basic
import Scriptlet.Proofs.Heap.Alteration

/-!
# Alike heaps

Two heaps are compared along a pairing of some of their containers: paired containers hold the
same scalars, and handles to paired containers, at the same places. Nothing is said of the other
containers, nor of the addresses. Making a container on both sides adds a pair, and a change that
is made to both containers of a pair keeps the heaps linked, because a pairing is one to one.
-/

namespace Scriptlet

/-- Which containers of one heap stand for which of another one. -/
abbrev Pairing := Container → Container → Prop

/-- A kind of thing that may hold handles, so that two of them can be the same up to a pairing. -/
class Pairable (α : Type) where
  /-- They differ in nothing but paired handles. -/
  Alike : Pairing → α → α → Prop
  /-- More pairs do no harm. -/
  mono : ∀ {π π' : Pairing} {a b : α}, π ≤ π' → Alike π a b → Alike π' a b

export Pairable (Alike)

/-- What is alike stays alike when pairs are added. -/
theorem Pairable.Alike.mono {α : Type} [Pairable α] {π π' : Pairing} {a b : α}
    (h : Alike π a b) (hle : π ≤ π') : Alike π' a b := Pairable.mono hle h

/-- A kind of thing that holds no handle. -/
@[reducible]
def Pairable.scalar (α : Type) : Pairable α where
  Alike _ a b := a = b
  mono _ h := h

instance : Pairable Unit := .scalar Unit
instance : Pairable Bool := .scalar Bool
instance : Pairable Nat := .scalar Nat
instance : Pairable Key := .scalar Key

/-- Values are alike if they are the same scalar or handles to paired containers. -/
inductive Value.Alike (π : Pairing) : Value → Value → Prop where
  | protected none : Alike π .none .none
  | bool (b : Bool) : Alike π (.bool b) (.bool b)
  | int (n : Int64) : Alike π (.int n) (.int n)
  | str (s : Bytes) : Alike π (.str s) (.str s)
  | array {r s : ArrayRef} (paired : π (.array r) (.array s)) : Alike π (.array r) (.array s)
  | dict {r s : DictRef} (paired : π (.dict r) (.dict s)) : Alike π (.dict r) (.dict s)

instance : Pairable Value where
  Alike := Value.Alike
  mono hle h := by
    cases h with
    | none => exact .none
    | bool b => exact .bool b
    | int n => exact .int n
    | str s => exact .str s
    | array paired => exact .array (hle _ _ paired)
    | dict paired => exact .dict (hle _ _ paired)

instance {α β : Type} [Pairable α] [Pairable β] : Pairable (α × β) where
  Alike π p q := Alike π p.1 q.1 ∧ Alike π p.2 q.2
  mono hle h := ⟨h.1.mono hle, h.2.mono hle⟩

instance {α : Type} [Pairable α] : Pairable (Option α) where
  Alike π := Option.Rel (Alike π)
  mono hle h := by
    cases h with
    | some h => exact .some (h.mono hle)
    | none => exact .none

instance {α : Type} [Pairable α] : Pairable (List α) where
  Alike π := List.Forall₂ (Alike π)
  mono hle h := h.imp fun _ _ ↦ (Pairable.Alike.mono · hle)

/-- Pure operations are alike if they fail for the same cause, or succeed in alike results. -/
inductive Except.Alike {ε α : Type} [Pairable α] (π : Pairing) :
    Except ε α → Except ε α → Prop where
  | ok {a b : α} (value : Scriptlet.Alike π a b) : Alike π (.ok a) (.ok b)
  | error (e : ε) : Alike π (.error e) (.error e)

instance {ε α : Type} [Pairable α] : Pairable (Except ε α) where
  Alike := Except.Alike
  mono hle h := by
    cases h with
    | ok value => exact .ok (value.mono hle)
    | error e => exact .error e

namespace Value

variable {π : Pairing} {v w : Value}

/-- A value that is no handle is like itself. -/
theorem alike_self (hv : v.container? = Option.none) : Alike π v v := by
  cases v with
  | none => exact .none
  | bool b => exact .bool b
  | int n => exact .int n
  | str s => exact .str s
  | array r | dict r => cases hv

/-- Alike values have one type. -/
theorem Alike.type_eq (h : Alike π v w) : w.type = v.type := by
  cases h <;> rfl

/-- One is a handle if the other one is. -/
theorem Alike.isContainer_eq (h : Alike π v w) : w.isContainer = v.isContainer := by
  cases h <;> rfl

/-- The container that one of two alike values names is paired. -/
theorem Alike.paired {c : Container} (h : Alike π v w) (hv : v.container? = some c) :
    ∃ d, w.container? = some d ∧ π c d := by
  cases h with
  | array paired | dict paired =>
    cases hv
    exact ⟨_, rfl, paired⟩
  | _ => cases hv

end Value

section Lists

variable {α β : Type} {R : α → β → Prop} {as : List α} {bs : List β}

/-- Related lists have related elements at each position. -/
theorem forall₂_getElem? (h : List.Forall₂ R as bs) (i : Nat) :
    Option.Rel R as[i]? bs[i]? := by
  induction h generalizing i with
  | nil => exact .none
  | cons hab _ ih =>
    cases i with
    | zero => exact .some hab
    | succ i =>
      rw [List.getElem?_cons_succ, List.getElem?_cons_succ]
      exact ih i

/-- They stay related when the elements at one position are changed alike. -/
theorem forall₂_modify {f : α → α} {g : β → β} (h : List.Forall₂ R as bs)
    (hfg : ∀ a b, R a b → R (f a) (g b)) (i : Nat) :
    List.Forall₂ R (as.modify i f) (bs.modify i g) := by
  induction h generalizing i with
  | nil => simp
  | cons hab hrest ih =>
    cases i with
    | zero =>
      rw [List.modify_zero_cons, List.modify_zero_cons]
      exact .cons (hfg _ _ hab) hrest
    | succ i =>
      rw [List.modify_succ_cons, List.modify_succ_cons]
      exact .cons hab (ih i)

/-- Functions that agree on related elements map related lists to the same list. -/
theorem map_eq_of_related {γ : Type} {f : α → γ} {g : β → γ} (h : List.Forall₂ R as bs)
    (hfg : ∀ a b, R a b → f a = g b) : as.map f = bs.map g := by
  rw [← List.forall₂_eq_eq_eq, List.forall₂_map_left_iff, List.forall₂_map_right_iff]
  exact h.imp hfg

end Lists

/-- Slots are alike if they differ in paired handles at most. -/
structure Slot.Alike (π : Pairing) (s t : Slot) : Prop where
  key : t.key = s.key
  value : Scriptlet.Alike π s.value t.value
  live : t.live = s.live

/-- Dictionaries are alike if they have the same keys in the same slots, with alike values. -/
structure Dictionary.Alike (π : Pairing) (d e : Dictionary) : Prop where
  slots : List.Forall₂ (Slot.Alike π) d.slots.toList e.slots.toList
  index : e.index = d.index
  size : e.size = d.size
  version : e.version = d.version

instance : Pairable Dictionary where
  Alike := Dictionary.Alike
  mono hle h := ⟨h.slots.imp fun _ _ hs ↦ ⟨hs.key, hs.value.mono hle, hs.live⟩, h.index, h.size,
    h.version⟩

namespace Dictionary

variable {π : Pairing} {d e : Dictionary} {v w : Value}

private theorem forall₂_live {ss ts : List Slot} (h : List.Forall₂ (Slot.Alike π) ss ts) :
    List.Forall₂ (Slot.Alike π) (ss.filter (·.live)) (ts.filter (·.live)) :=
  List.rel_filter (fun _ _ hs ↦ iff_of_eq (congrArg (· = true) hs.live.symm)) h

/-- An empty dictionary holds nothing. -/
theorem alike_empty (π : Pairing) : Alike π ({} : Dictionary) ({} : Dictionary) :=
  Dictionary.Alike.mk .nil rfl rfl rfl

namespace Alike

private theorem size_slots (h : Dictionary.Alike π d e) : e.slots.size = d.slots.size :=
  h.slots.length_eq.symm

/-- Alike dictionaries have the same keys. -/
theorem contains_eq (h : Dictionary.Alike π d e) (k : Key) : e.contains k = d.contains k := by
  rw [contains, contains, h.index]

private theorem slot (h : Dictionary.Alike π d e) (i : Nat) :
    Option.Rel (Slot.Alike π) d.slots[i]? e.slots[i]? := by
  rw [← Array.getElem?_toList, ← Array.getElem?_toList]
  exact forall₂_getElem? h.slots i

private theorem slot_value (h : Dictionary.Alike π d e) (i : Nat) :
    Scriptlet.Alike π (d.slots[i]?.map (·.value)) (e.slots[i]?.map (·.value)) := by
  have hs := h.slot i
  generalize d.slots[i]? = s? at hs
  generalize e.slots[i]? = t? at hs
  cases hs with
  | some hs => exact .some hs.value
  | none => exact .none

/-- What they hold under one key is alike. -/
theorem find? (h : Dictionary.Alike π d e) (k : Key) :
    Scriptlet.Alike π (d.find? k) (e.find? k) := by
  rw [Dictionary.find?, Dictionary.find?, h.index]
  cases d.index[k]? with
  | none => exact .none
  | some i => exact h.slot_value i

/-- Their entries are alike, in the same order. -/
theorem entries (h : Dictionary.Alike π d e) : Scriptlet.Alike π d.entries e.entries := by
  apply List.forall₂_map_left_iff.mpr
  apply List.forall₂_map_right_iff.mpr
  exact (forall₂_live h.slots).imp fun _ _ hs ↦ ⟨hs.key.symm, hs.value⟩

/-- Their keys are the same, in the same order. -/
theorem keys_eq (h : Dictionary.Alike π d e) : e.keys = d.keys := by
  have he := h.entries
  simp only [keys]
  generalize d.entries = ps at he
  generalize e.entries = qs at he
  induction he with
  | nil => rfl
  | cons hp _ ih => rw [List.map_cons, List.map_cons, ih, ← hp.1]

/-- A value may be written into the same slot. -/
theorem overwriteAt (h : Dictionary.Alike π d e) (i : Nat) (hv : Scriptlet.Alike π v w) :
    Dictionary.Alike π (d.overwriteAt i v) (e.overwriteAt i w) where
  slots := by
    simp only [Dictionary.overwriteAt, Array.toList_modify]
    exact forall₂_modify h.slots (fun s t hs ↦ by exact ⟨hs.key, hv, hs.live⟩) i
  index := h.index
  size := h.size
  version := h.version

private theorem append (h : Dictionary.Alike π d e) (k : Key) (hv : Scriptlet.Alike π v w) :
    Dictionary.Alike π (d.append k v) (e.append k w) where
  slots := by
    simp only [Dictionary.append, Array.toList_push]
    exact List.rel_append h.slots (.cons ⟨rfl, hv, rfl⟩ .nil)
  index := by
    simp only [Dictionary.append, h.index, h.size_slots]
  size := congrArg (· + 1) h.size
  version := congrArg (· + 1) h.version

/-- An entry may be written. -/
theorem set (h : Dictionary.Alike π d e) (k : Key) (hv : Scriptlet.Alike π v w) :
    Dictionary.Alike π (d.set k v) (e.set k w) := by
  rw [Dictionary.set, Dictionary.set, put, put, h.index]
  cases d.index[k]? with
  | some i => exact h.overwriteAt i hv
  | none => exact h.append k hv

/-- Entries may be written one after the other. -/
theorem setAll (h : Dictionary.Alike π d e) {ps qs : List (Key × Value)}
    (hpq : Scriptlet.Alike π ps qs) :
    Dictionary.Alike π (ps.foldl (fun d (k, v) ↦ d.set k v) d)
      (qs.foldl (fun d (k, v) ↦ d.set k v) e) := by
  induction hpq generalizing d e with
  | nil => exact h
  | @cons p q _ _ hp _ ih =>
    obtain ⟨k, v⟩ := p
    obtain ⟨k', w⟩ := q
    obtain ⟨rfl, hv⟩ := hp
    exact ih (h.set k hv)

private theorem kill (h : Dictionary.Alike π d e) (k : Key) (i : Nat) :
    Dictionary.Alike π (d.kill k i) (e.kill k i) where
  slots := by
    simp only [Dictionary.kill, Array.toList_modify]
    exact forall₂_modify h.slots (fun s t hs ↦ by exact ⟨hs.key, .none, rfl⟩) i
  index := congrArg (·.erase k) h.index
  size := congrArg (· - 1) h.size
  version := congrArg (· + 1) h.version

private theorem reindex_eq {ss ts : List Slot} (h : List.Forall₂ (Slot.Alike π) ss ts)
    (index : Std.TreeMap Key Nat) : reindex index ts = reindex index ss := by
  suffices hfrom : ∀ (n : Nat) (index : Std.TreeMap Key Nat),
      (ts.zipIdx n).foldl (fun index p ↦ index.insert p.1.key p.2) index =
        (ss.zipIdx n).foldl (fun index p ↦ index.insert p.1.key p.2) index from hfrom 0 index
  induction h with
  | nil => exact fun _ _ ↦ rfl
  | cons hs _ ih =>
    intro n index
    simp only [List.zipIdx_cons, List.foldl_cons, hs.key]
    exact ih (n + 1) _

private theorem compact (h : Dictionary.Alike π d e) : Dictionary.Alike π d.compact e.compact := by
  have hkept : List.Forall₂ (Slot.Alike π) (d.slots.filter (·.live)).toList
      (e.slots.filter (·.live)).toList := by
    rw [Array.toList_filter, Array.toList_filter]
    exact forall₂_live h.slots
  refine ⟨hkept, ?_, h.size, h.version⟩
  simp only [Dictionary.compact, h.index]
  exact reindex_eq hkept _

private theorem settle (h : Dictionary.Alike π d e) : Dictionary.Alike π d.settle e.settle := by
  have htombstones : e.tombstones = d.tombstones := by
    rw [tombstones, tombstones, h.size_slots, h.size]
  rw [Dictionary.settle, Dictionary.settle, h.size, htombstones]
  split
  · exact h.compact
  · exact h

/-- An entry may be removed; what it held is alike. -/
theorem remove? (h : Dictionary.Alike π d e) (k : Key) :
    Scriptlet.Alike π (d.remove? k) (e.remove? k) := by
  rw [Dictionary.remove?, Dictionary.remove?, h.index]
  cases d.index[k]? with
  | none => exact .none
  | some i =>
    refine .some ⟨?_, (h.kill k i).settle⟩
    have hs := h.slot_value i
    simp only
    generalize d.slots[i]?.map (·.value) = v? at hs ⊢
    generalize e.slots[i]?.map (·.value) = w? at hs ⊢
    cases hs with
    | some hv => exact hv
    | none => exact .none

end Alike
end Dictionary
end Scriptlet
