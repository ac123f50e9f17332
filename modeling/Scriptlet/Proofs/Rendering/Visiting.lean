import Mathlib.Data.Finset.Card
import Mathlib.Data.Finset.Insert
import Scriptlet.Proofs.Rendering.Reading

/-!
# Writing with one set of containers under way

A text can be written from left to right, with one set that holds the containers under way: a
container enters it before its elements are written and leaves it behind them. The set is asked
whether a container is under way already, and its size how deep the writing is. This comes to the
same as passing on the path of containers around a value, since the set is always that path: it is
restored behind everything that is written, whether in full or as an ellipsis.
-/

namespace Scriptlet

open Bytes

/-- A text in the making: what is written so far, and the containers under way. -/
structure Writing where
  out : Bytes := []
  visiting : Finset Container := ∅

namespace Writing

/-- Writes a piece of text. -/
def put (w : Writing) (text : Bytes) : Writing := { w with out := w.out ++ text }

/-- A container is under way from here on. -/
def enter (w : Writing) (c : Container) : Writing := { w with visiting := insert c w.visiting }

/-- A container is no longer under way. -/
def leave (w : Writing) (c : Container) : Writing := { w with visiting := w.visiting.erase c }

/-- Writes those items that are shown, with a comma before each but the first. -/
def items {α : Type} (shown : α → Bool) (item : α → Writing → Option Writing) (first : Bool) :
    List α → Writing → Option Writing
  | [], w => some w
  | x :: xs, w =>
    if shown x then do
      let w ← item x (if first then w else w.put ", ")
      items shown item false xs w
    else items shown item first xs w

/-- Writes a container, of which `inside` writes the middle: as an ellipsis if it is under way
already or too many others are, and otherwise while it is under way. -/
def container (c : Container) (opening ellipsis closing : Bytes)
    (inside : Writing → Option Writing) (w : Writing) : Option Writing :=
  if c ∈ w.visiting ∨ maxRenderDepth ≤ w.visiting.card then some (w.put ellipsis)
  else do
    let w ← inside ((w.enter c).put opening)
    some ((w.put closing).leave c)

/-- Writes an entry of a dictionary, the key before the value. -/
def entry (write : Value → Writing → Option Writing) (slot : Slot) (w : Writing) :
    Option Writing := do
  let w ← write slot.key.toValue w
  write slot.value (w.put ": ")

/-- Text that is put in two parts is put in one. -/
@[simp]
theorem put_put (w : Writing) (s t : Bytes) : (w.put s).put t = w.put (s ++ t) := by
  simp [put]

/-- Putting text leaves the set of visited containers alone. -/
@[simp]
theorem visiting_put (w : Writing) (s : Bytes) : (w.put s).visiting = w.visiting := rfl

private theorem leave_put_enter {w : Writing} {c : Container} (hc : c ∉ w.visiting) (s : Bytes) :
    ((w.enter c).put s).leave c = w.put s := by
  simp [enter, put, leave, Finset.erase_insert hc]

end Writing

namespace Heap

/-- Writes a value, a string with quotation marks if `quote` asks for them. There is no result if
more than `fuel` values would be written inside one another. -/
def write? (h : Heap) (fuel : Nat) (quote : Bool) (v : Value) (w : Writing) : Option Writing :=
  match fuel with
  | 0 => none
  | fuel + 1 =>
    match v with
    | .none => some (w.put "none")
    | .bool b => some (w.put (Bytes.ofBool b))
    | .int n => some (w.put (Bytes.ofInt64 n))
    | .str s => some (w.put (if quote then Bytes.quoted s else s))
    | .array r =>
      let elements := Writing.items (fun _ ↦ true) (write? h fuel true) true (h.array r).toList
      w.container (.array r) "[" "[...]" "]" elements
    | .dict r =>
      let entries :=
        Writing.items (·.live) (Writing.entry (write? h fuel true)) true (h.dict r).slots.toList
      w.container (.dict r) "\x7b" "\x7b...\x7d" "\x7d" entries

end Heap

/-- The texts of values inside containers, by recursion on the path of containers around them. -/
structure Heap.PathText (h : Heap) (text : List Container → Value → Bytes) : Prop where
  none (path : List Container) : text path .none = "none"
  bool (path : List Container) (b : Bool) : text path (.bool b) = Bytes.ofBool b
  int (path : List Container) (n : Int64) : text path (.int n) = Bytes.ofInt64 n
  str (path : List Container) (s : Bytes) : text path (.str s) = Bytes.quoted s
  array (path : List Container) (r : ArrayRef) : text path (.array r) =
    if .array r ∈ path ∨ 200 ≤ path.length then ↑"[...]"
    else "[" ++ commaSeparated ((h.array r).toList.map (text (.array r :: path))) ++ "]"
  dict (path : List Container) (r : DictRef) : text path (.dict r) =
    if .dict r ∈ path ∨ 200 ≤ path.length then ↑"\x7b...\x7d"
    else "\x7b" ++ commaSeparated ((h.dict r).entries.map fun (k, v) ↦
      text (.dict r :: path) k.toValue ++ ": " ++ text (.dict r :: path) v) ++ "\x7d"

/-! ### Items -/

/-- Parts that follow others, each behind a comma. -/
def Bytes.furtherParts (parts : List Bytes) : Bytes := parts.flatMap fun part ↦ ", " ++ part

private theorem Bytes.commaSeparated_cons (part : Bytes) (parts : List Bytes) :
    commaSeparated (part :: parts) = part ++ furtherParts parts := by
  induction parts generalizing part with
  | nil => simp [furtherParts]
  | cons next parts ih =>
    rw [commaSeparated_cons_cons, ih, furtherParts, furtherParts, List.flatMap_cons,
      List.append_assoc, List.append_assoc]

namespace Writing

variable {α : Type} {shown : α → Bool} {item : α → Writing → Option Writing} {text : α → Bytes}
  {visiting : Finset Container} {l : List α}

/-- Each item of a list is written as its text, if the set is `visiting`. -/
def Writes (item : α → Writing → Option Writing) (text : α → Bytes) (visiting : Finset Container)
    (l : List α) : Prop :=
  ∀ x ∈ l, ∀ w : Writing, w.visiting = visiting → item x w = some (w.put (text x))

private theorem items_false (hitem : Writes item text visiting l) {w : Writing}
    (hw : w.visiting = visiting) :
    items shown item false l w = some (w.put (furtherParts ((l.filter shown).map text))) := by
  induction l generalizing w with
  | nil => simp [items, put, furtherParts]
  | cons x l ih =>
    have ih {w : Writing} := @ih (fun y hy ↦ hitem y (List.mem_cons_of_mem x hy)) w
    rw [items]
    split
    · next hx =>
      rw [if_neg Bool.false_ne_true, hitem x List.mem_cons_self (w.put ", ") hw,
        Option.bind_eq_bind, Option.bind_some, ih (by exact hw), put_put, put_put,
        List.filter_cons_of_pos hx, List.map_cons, furtherParts, furtherParts, List.flatMap_cons,
        List.append_assoc]
    · next hx => rw [ih hw, List.filter_cons_of_neg hx]

private theorem items_true (hitem : Writes item text visiting l) {w : Writing}
    (hw : w.visiting = visiting) :
    items shown item true l w = some (w.put (commaSeparated ((l.filter shown).map text))) := by
  induction l with
  | nil => simp [items, put]
  | cons x l ih =>
    have hrest : Writes item text visiting l := fun y hy ↦ hitem y (List.mem_cons_of_mem x hy)
    rw [items]
    split
    · next hx =>
      rw [if_pos rfl, hitem x List.mem_cons_self w hw, Option.bind_eq_bind, Option.bind_some,
        items_false hrest, put_put, List.filter_cons_of_pos hx, List.map_cons,
        commaSeparated_cons]
      exact hw
    · next hx => rw [ih hrest, List.filter_cons_of_neg hx]

end Writing

namespace Heap

variable {h : Heap}

/-! ### The set is the path -/

private theorem container_eq {path : List Container} (hpath : path.Nodup) {w : Writing}
    (hw : w.visiting = path.toFinset) {c : Container} {inside : Writing → Option Writing}
    {middle : Bytes} (opening ellipsis closing : Bytes)
    (hinside : (c :: path).Nodup → path.length < 200 → ∀ w : Writing,
      w.visiting = (c :: path).toFinset → inside w = some (w.put middle)) :
    w.container c opening ellipsis closing inside =
      some (w.put (if c ∈ path ∨ 200 ≤ path.length then ellipsis
        else opening ++ middle ++ closing)) := by
  have helided : c ∈ w.visiting ∨ maxRenderDepth ≤ w.visiting.card ↔
      c ∈ path ∨ 200 ≤ path.length := by
    rw [hw, List.mem_toFinset, List.toFinset_card_of_nodup hpath, maxRenderDepth]
  unfold Writing.container
  split
  · next he => rw [if_pos (helided.mp he)]
  · next he =>
    have hc := mt helided.mpr he
    have hnew : c ∉ path ∧ path.length < 200 := by rwa [not_or, Nat.not_le] at hc
    rw [if_neg hc, hinside (List.nodup_cons.mpr ⟨hnew.1, hpath⟩) hnew.2, Option.bind_eq_bind,
      Option.bind_some, Writing.put_put, Writing.put_put,
      Writing.leave_put_enter fun hn ↦ he (.inl hn), List.append_assoc]
    rw [Writing.visiting_put, Writing.enter, hw, List.toFinset_cons]

namespace PathText

variable {text : List Container → Value → Bytes}

/-- What is written while the set holds the path is the text under that path, and afterwards the set
is as it was. The induction is on the calls inside one another: each call inside finds one
container more on the path. -/
theorem write?_eq (ht : h.PathText text) {fuel : Nat} {path : List Container} {w : Writing}
    (hpath : path.Nodup) (hw : w.visiting = path.toFinset) (hfuel : 200 - path.length < fuel)
    (v : Value) : h.write? fuel true v w = some (w.put (text path v)) := by
  induction fuel generalizing path w v with
  | zero => exact absurd hfuel (Nat.not_lt_zero _)
  | succ fuel ih =>
    have inside {c : Container} (hnodup : (c :: path).Nodup) (hroom : path.length < 200)
        {w : Writing} (hw : w.visiting = (c :: path).toFinset) (v : Value) :
        h.write? fuel true v w = some (w.put (text (c :: path) v)) := by
      refine ih hnodup hw ?_ v
      rw [List.length_cons]
      omega
    cases v with
    | none => rw [write?, ht.none]
    | bool b => rw [write?, ht.bool]
    | int n => rw [write?, ht.int]
    | str s => rw [write?, ht.str, if_pos rfl]
    | array r =>
      rw [write?, ht.array]
      refine container_eq hpath hw _ _ _ fun hnodup hroom w hw ↦ ?_
      rw [Writing.items_true (fun v _ w hw ↦ inside hnodup hroom hw v) hw, List.filter_true]
    | dict r =>
      rw [write?, ht.dict]
      refine container_eq hpath hw _ _ _ fun hnodup hroom w hw ↦ ?_
      have hentry : Writing.Writes (Writing.entry (h.write? fuel true))
          (fun slot ↦ text (.dict r :: path) slot.key.toValue ++ ": " ++
            text (.dict r :: path) slot.value)
          (.dict r :: path).toFinset (h.dict r).slots.toList := by
        intro slot _ w hw
        rw [Writing.entry, inside hnodup hroom hw, Option.bind_eq_bind, Option.bind_some,
          inside hnodup hroom (by exact hw), Writing.put_put, Writing.put_put]
        simp only [List.append_assoc]
      rw [Writing.items_true hentry hw, Dictionary.entries, List.map_map]
      rfl

/-- There is only one such text, by induction on the containers that the path has room for. -/
theorem unique {other : List Container → Value → Bytes} (ht : h.PathText text)
    (ho : h.PathText other) (path : List Container) (v : Value) : other path v = text path v := by
  induction hroom : 200 - path.length using Nat.strongRec generalizing path v with
  | ind room ih =>
    have inside {c : Container} (hc : ¬ (c ∈ path ∨ 200 ≤ path.length)) :
        other (c :: path) = text (c :: path) := by
      refine funext fun v ↦ ih _ ?_ (c :: path) v rfl
      rw [List.length_cons]
      omega
    cases v with
    | none => rw [ho.none, ht.none]
    | bool b => rw [ho.bool, ht.bool]
    | int n => rw [ho.int, ht.int]
    | str s => rw [ho.str, ht.str]
    | array r =>
      rw [ho.array, ht.array]
      split
      · rfl
      · next hc => rw [inside hc]
    | dict r =>
      rw [ho.dict, ht.dict]
      split
      · rfl
      · next hc => rw [inside hc]

end PathText

/-- The text of a value inside the containers of a path, which leaves room for the rest of two
hundred. -/
def pathText (h : Heap) (path : List Container) (v : Value) : Bytes :=
  h.renderNested (maxRenderDepth - path.length) path v

/-- The room that is passed on inwards is what the longer path leaves. -/
theorem pathText_spec (h : Heap) : h.PathText h.pathText where
  none _ := renderNested_none
  bool _ := renderNested_bool
  int _ := renderNested_int
  str _ := renderNested_str
  array path r := by
    unfold pathText
    cases hroom : maxRenderDepth - path.length with
    | zero => rw [if_pos (.inr (Nat.le_of_sub_eq_zero hroom)), renderNested]
    | succ room =>
      have hlt : ¬ 200 ≤ path.length := by
        rw [maxRenderDepth] at hroom
        omega
      rw [renderNested, List.length_cons, Nat.sub_succ, hroom]
      simp only [hlt, or_false, Nat.pred_succ]
  dict path r := by
    unfold pathText
    cases hroom : maxRenderDepth - path.length with
    | zero => rw [if_pos (.inr (Nat.le_of_sub_eq_zero hroom)), renderNested]
    | succ room =>
      have hlt : ¬ 200 ≤ path.length := by
        rw [maxRenderDepth] at hroom
        omega
      rw [renderNested, List.length_cons, Nat.sub_succ, hroom]
      simp only [hlt, or_false, Nat.pred_succ, renderNested_toValue]

private theorem write?_false {v : Value} (hv : v.type ≠ .string) (fuel : Nat) (w : Writing) :
    h.write? fuel false v w = h.write? fuel true v w := by
  cases fuel with
  | zero => rfl
  | succ fuel =>
    cases v with
    | str s => exact absurd rfl hv
    | _ => rfl

/-- On every heap, whatever is shared and whatever cycles there are, there is one function that
satisfies the equations of a text by recursion on the path of enclosing containers. Writing a value
from left to right with one set of containers under way ends, within two hundred and one calls
inside one another: in the middle of a text, where the set holds the path so far, it writes the text
under that path and leaves the set as it was, and from the start it writes the debug text or the
display text. These are the text under the empty path, except that a string is displayed as it
is. -/
theorem rendering_context_free (h : Heap) :
    ∃ text, h.PathText text ∧ (∀ other, h.PathText other → other = text) ∧
      (∀ (path : List Container) (v : Value) (out : Bytes) (more : Nat), path.Nodup →
        h.write? (201 + more) true v ⟨out, path.toFinset⟩ =
          some ⟨out ++ text path v, path.toFinset⟩) ∧
      (∀ (v : Value) (more : Nat),
        h.write? (201 + more) true v {} = some ⟨h.debugText v, ∅⟩ ∧
        h.write? (201 + more) false v {} = some ⟨h.displayText v, ∅⟩) ∧
      (∀ v, h.debugText v = text [] v) ∧
      (∀ v, v.type ≠ .string → h.displayText v = h.debugText v) ∧
      ∀ s, h.displayText (.str s) = s := by
  have hwrite (path : List Container) (v : Value) (out : Bytes) (more : Nat) (hp : path.Nodup) :
      h.write? (201 + more) true v ⟨out, path.toFinset⟩ =
        some ⟨out ++ h.pathText path v, path.toFinset⟩ :=
    h.pathText_spec.write?_eq hp rfl (by omega) v
  have hdebug (v : Value) (more : Nat) :
      h.write? (201 + more) true v {} = some ⟨h.debugText v, ∅⟩ :=
    hwrite [] v [] more List.nodup_nil
  refine ⟨h.pathText, h.pathText_spec, fun other ho ↦ ?_, hwrite, fun v more ↦ ⟨hdebug v more, ?_⟩,
    fun _ ↦ rfl, h.displayText_eq_debugText, fun _ ↦ rfl⟩
  · exact funext fun path ↦ funext fun v ↦ h.pathText_spec.unique ho path v
  · by_cases hv : v.type = .string
    · cases v with
      | str s =>
        rw [Nat.add_comm, write?]
        rfl
      | _ => cases hv
    · rw [write?_false hv, hdebug, h.displayText_eq_debugText v hv]

/-- An array that stands twice in another one is written in full both times. -/
example : ({ arrays := #[#[.int 7], #[.array ⟨0⟩, .array ⟨0⟩]] } : Heap).displayText (.array ⟨1⟩) =
    "[[7], [7]]" := by
  decide +kernel

end Heap
end Scriptlet
