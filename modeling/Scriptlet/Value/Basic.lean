import Std.Data.TreeMap
import Scriptlet.Text.Quoted

/-!
# Values

A value is a scalar or a handle to a container. Handles are plain addresses: two values are
equal exactly when they are the same scalar or name the same container, whatever that
container holds.
-/

namespace Scriptlet

/-- Address of an array. -/
structure ArrayRef where
  index : Nat
  deriving DecidableEq, Inhabited

/-- Address of a dictionary. -/
structure DictRef where
  index : Nat
  deriving DecidableEq, Inhabited

/-- A value of the language (specification §3). -/
inductive Value where
  | protected none
  | bool (b : Bool)
  | int (n : Int64)
  | str (s : Bytes)
  | array (r : ArrayRef)
  | dict (r : DictRef)
  deriving DecidableEq

instance : Inhabited Value where default := .none

/-- A container, as the thing a handle names. -/
inductive Container where
  | array (r : ArrayRef)
  | dict (r : DictRef)
  deriving DecidableEq

/-- The kinds of value that scripts can tell apart. -/
inductive TypeName where
  | protected none
  | bool
  | int
  | string
  | array
  | dictionary
  deriving DecidableEq

/-- The word for a type (specification §4.1). -/
def TypeName.text : TypeName → Bytes
  | .none => "none"
  | .bool => "bool"
  | .int => "int"
  | .string => "string"
  | .array => "array"
  | .dictionary => "dictionary"

namespace Value

/-- The type of a value. -/
def type : Value → TypeName
  | .none => .none
  | .bool _ => .bool
  | .int _ => .int
  | .str _ => .string
  | .array _ => .array
  | .dict _ => .dictionary

/-- The container that a value is a handle to. -/
def container? : Value → Option Container
  | .array r => some (.array r)
  | .dict r => some (.dict r)
  | _ => Option.none

/-- Whether a value is a handle. -/
def isContainer (v : Value) : Bool := v.container?.isSome

/-- Equality in scripts (specification §4.1): the same scalar, or a handle to the same container. -/
def equals (a b : Value) : Bool := decide (a = b)

/-- Equality in scripts is equality of values. -/
@[simp]
theorem equals_iff (a b : Value) : a.equals b = true ↔ a = b := by simp [equals]

end Value

/-- The handle that names a container. -/
def Container.handle : Container → Value
  | .array r => .array r
  | .dict r => .dict r

/-- A container is what its handle names. -/
@[simp]
theorem Container.container?_handle (c : Container) : c.handle.container? = some c := by
  cases c <;> rfl

/-- A value that names a container is that container's handle. -/
theorem Value.container?_eq_some_iff (v : Value) (c : Container) :
    v.container? = some c ↔ v = c.handle := by
  cases v <;> cases c <;> simp [container?, Container.handle]

/-- A dictionary key (specification §3): an integer or a string, never equal to one another. -/
inductive Key where
  | int (n : Int64)
  | str (s : Bytes)
  deriving DecidableEq

namespace Key

/-- The key as a value. -/
def toValue : Key → Value
  | .int n => .int n
  | .str s => .str s

/-- The key that a value stands for; only integers and strings are keys. -/
def ofValue? : Value → Option Key
  | .int n => some (.int n)
  | .str s => some (.str s)
  | _ => none

/-- The key as it is written inside a dictionary: decimal or quoted. -/
def text : Key → Bytes
  | .int n => Bytes.ofInt64 n
  | .str s => Bytes.quoted s

/-- A value is a key exactly when it is that key's value. -/
theorem ofValue?_eq_some_iff (v : Value) (k : Key) : ofValue? v = some k ↔ v = k.toValue := by
  cases v <;> cases k <;> simp [ofValue?, toValue]

/-- Integers before strings, each kind in its own order. -/
def order : Key → Key → Ordering
  | .int a, .int b => compare a b
  | .int _, .str _ => .lt
  | .str _, .int _ => .gt
  | .str a, .str b => compare a b

instance : Ord Key where compare := order

/-- Swapping two keys swaps their order. -/
theorem order_swap (a b : Key) : order a b = (order b a).swap := by
  cases a with
  | int m =>
    cases b with
    | int n => exact Std.OrientedOrd.eq_swap (a := m) (b := n)
    | str _ => rfl
  | str s =>
    cases b with
    | int _ => rfl
    | str t => exact Std.OrientedOrd.eq_swap (a := s) (b := t)

/-- The order of keys is transitive. -/
theorem order_isLE_trans {a b c : Key} (hab : (order a b).isLE) (hbc : (order b c).isLE) :
    (order a c).isLE := by
  cases a with
  | int m =>
    cases c with
    | str _ => rfl
    | int n =>
      cases b with
      | int k => exact Std.TransOrd.isLE_trans (a := m) (b := k) (c := n) hab hbc
      | str _ => exact absurd hbc Bool.false_ne_true
  | str s =>
    cases b with
    | int _ => exact absurd hab Bool.false_ne_true
    | str t =>
      cases c with
      | int _ => exact absurd hbc Bool.false_ne_true
      | str u => exact Std.TransOrd.isLE_trans (a := s) (b := t) (c := u) hab hbc

/-- Keys that no order tells apart are the same key. -/
theorem eq_of_order_eq {a b : Key} (h : order a b = .eq) : a = b := by
  cases a with
  | int m =>
    cases b with
    | int n => exact congrArg Key.int (Std.LawfulEqOrd.eq_of_compare h)
    | str _ => exact Ordering.noConfusion h
  | str s =>
    cases b with
    | int _ => exact Ordering.noConfusion h
    | str t => exact congrArg Key.str (Std.LawfulEqOrd.eq_of_compare h)

instance : Std.TransOrd Key where
  eq_swap := order_swap _ _
  isLE_trans := order_isLE_trans

instance : Std.LawfulEqOrd Key where
  eq_of_compare := eq_of_order_eq

end Key
end Scriptlet
