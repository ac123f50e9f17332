import Scriptlet.Evaluation.Interpreter

/-!
# How operations on values fail

Each operation on values fails for reasons of a few kinds only: operators because of the types of
their operands or because a result does not fit, reads and writes because of what they are given
or because there is nothing at an index. So do the built-in functions of the language.
-/

namespace Scriptlet

universe u

/-- An operation that fails does so for a reason of one of these kinds. -/
def FailsWith {α : Type u} (kinds : List ErrorKind) (x : Except Cause α) : Prop :=
  ∀ cause, x = .error cause → cause.kind ∈ kinds

namespace FailsWith

variable {α β : Type u} {kinds : List ErrorKind}

/-- A result is no failure. -/
theorem ok (a : α) : FailsWith kinds (.ok a : Except Cause α) := by
  intro _ he
  cases he

/-- A failure of one of the kinds. -/
theorem error {cause : Cause} (h : kinds.contains cause.kind = true) :
    FailsWith kinds (.error cause : Except Cause α) := by
  intro _ he
  cases he
  exact List.contains_iff_mem.mp h

/-- An operation does not fail for a reason of any other kind. -/
theorem kind_ne {x : Except Cause α} (hx : FailsWith kinds x) {k : ErrorKind} (hk : k ∉ kinds)
    {cause : Cause} (hc : x = .error cause) : cause.kind ≠ k := fun h ↦ hk (h ▸ hx cause hc)

/-- Other kinds may be added. -/
theorem mono {x : Except Cause α} {more : List ErrorKind} (hx : FailsWith kinds x)
    (h : kinds ⊆ more) : FailsWith more x := fun cause hc ↦ h (hx cause hc)

/-- Operations one after the other fail with the kinds of either. -/
theorem bind {x : Except Cause α} {f : α → Except Cause β} (hx : FailsWith kinds x)
    (hf : ∀ a, FailsWith kinds (f a)) : FailsWith kinds (x >>= f) := by
  cases x with
  | ok a => exact hf a
  | error cause => exact error (List.contains_iff_mem.mpr (hx cause rfl))

/-- A choice between operations. -/
theorem ite {p : Prop} [Decidable p] {x y : Except Cause α} (hx : FailsWith kinds x)
    (hy : FailsWith kinds y) : FailsWith kinds (if p then x else y) := by
  split
  · exact hx
  · exact hy

private theorem onInts (op : BinaryOp) (a b : Int64) :
    FailsWith [.arithmeticError] (op.onInts a b) := by
  cases op with
  | add | sub | mul | shiftLeft | shiftRight => exact ite (error rfl) (ok _)
  | div => exact ite (error rfl) (ite (error rfl) (ok _))
  | rem => exact ite (error rfl) (ite (ok _) (ok _))
  | _ => exact ok _

/-- The sum of two values. -/
theorem add (h : Heap) (a b : Value) :
    FailsWith [.arithmeticError, .typeMismatch] (h.add a b) := by
  unfold Heap.add
  split
  · exact (onInts _ _ _).mono (by decide)
  · exact ok _
  · exact ok _
  · exact error rfl

/-- Binary operators. -/
theorem binary (h : Heap) (op : Bytes) (a b : Value) :
    FailsWith [.arithmeticError, .typeMismatch] (h.binary op a b) := by
  have hgetD (r : Option Value) : FailsWith [.arithmeticError, .typeMismatch]
      ((r.map Except.ok).getD (.error (.operandTypes op a.type b.type))) := by
    cases r with
    | some v => exact ok v
    | none => exact error rfl
  unfold Heap.binary
  split
  · exact add h a b
  · exact ok _
  · exact ok _
  · split
    · split
      · exact (onInts _ _ _).mono (by decide)
      · exact error rfl
    · exact hgetD _
    · exact hgetD _
    · exact error rfl

/-- Unary operators. -/
theorem unary (op : Bytes) (v : Value) :
    FailsWith [.arithmeticError, .typeMismatch] (v.unary op) := by
  cases v with
  | int n => exact ite (ite (error rfl) (ok _)) (error rfl)
  | bool b => exact ite (ok _) (error rfl)
  | _ => exact error rfl

/-- An absolute value fails with an arithmetic error only. -/
theorem absInt (n : Int64) : FailsWith [.arithmeticError] (Scriptlet.absInt n) :=
  ite (error rfl) (ok _)

/-- Keys. -/
theorem dictKey (v : Value) : FailsWith [.typeMismatch] (Scriptlet.dictKey v) := by
  unfold Scriptlet.dictKey
  split
  · exact ok _
  · exact error rfl

private theorem arrayPosition (length : Nat) (key : Value) :
    FailsWith [.indexOutOfRange, .typeMismatch] (Scriptlet.arrayPosition length key) := by
  cases key with
  | int n => exact ite (ok _) (error rfl)
  | _ => exact error rfl

/-- Reading by index. -/
theorem read (h : Heap) (container key : Value) :
    FailsWith [.indexOutOfRange, .keyNotFound, .notIndexable, .typeMismatch]
      (h.read container key) := by
  cases container with
  | array r => exact ((arrayPosition _ key).mono (by decide)).bind fun _ ↦ ok _
  | dict r =>
    apply ((dictKey key).mono (by decide)).bind
    intro k
    cases (h.dict r).find? k with
    | some v => exact ok v
    | none => exact error rfl
  | _ => exact error rfl

/-- Writing by index. A key need not be there before. -/
theorem write (h : Heap) (container key v : Value) :
    FailsWith [.indexOutOfRange, .notIndexable, .typeMismatch] (h.write container key v) := by
  cases container with
  | array r => exact ((arrayPosition _ key).mono (by decide)).bind fun _ ↦ ok _
  | dict r => exact ((dictKey key).mono (by decide)).bind fun _ ↦ ok _
  | _ => exact error rfl

/-- The value that an assignment stores. -/
theorem combine (h : Heap) (current new : Value) (op : AssignOp) :
    FailsWith [.arithmeticError, .typeMismatch] (op.combine h current new) := by
  cases op with
  | plain => exact ok new
  | compound op => exact binary h _ current new

end FailsWith

namespace Builtin

/-- The kinds of error of the built-in functions of the language. -/
def errorKinds : List ErrorKind :=
  [.argumentCountMismatch, .typeMismatch, .keyNotFound, .arithmeticError]

variable [Host]

/-- A built-in function of the language fails because of the number or the types of its arguments,
for want of a key, or because a result does not fit. -/
theorem Native.failsWith {b : Builtin} {arguments : List Value}
    {respond : Heap → Except Cause Response} (hb : Native arguments b respond) (h : Heap) :
    FailsWith errorKinds (respond h) := by
  have harity (b : Builtin) (n : Nat) : FailsWith errorKinds (b.wrongArity n arguments) :=
    .error rfl
  have htype (b : Builtin) (expected : Bytes) (v : Value) :
      FailsWith errorKinds (b.wrongType expected v) := .error rfl
  have hkey (k : Value) : FailsWith errorKinds (Scriptlet.dictKey k) :=
    (FailsWith.dictKey k).mono (by decide)
  cases hb with
  | print => exact .ok _
  | len =>
    unfold respondLen
    split
    · exact .ok _
    · exact .ok _
    · exact .ok _
    · exact htype _ _ _
    · exact harity _ _
  | abs =>
    unfold respondAbs
    split
    · exact ((FailsWith.absInt _).mono (by decide)).bind fun _ ↦ .ok _
    · exact htype _ _ _
    · exact harity _ _
  | contains =>
    unfold respondContains
    split
    · exact (hkey _).bind fun _ ↦ .ok _
    · exact htype _ _ _
    · exact harity _ _
  | remove =>
    unfold respondRemove
    split
    · next r k =>
      apply (hkey k).bind
      intro k
      cases (h.dict r).remove? k with
      | some found => exact .ok _
      | none => exact .error rfl
    · exact htype _ _ _
    · exact harity _ _
  | push =>
    unfold respondPush
    split
    · exact .ok _
    · exact htype _ _ _
    · exact harity _ _
  | keys =>
    unfold respondKeys
    split
    · exact .ok _
    · exact htype _ _ _
    · exact harity _ _
  | type =>
    unfold respondType
    split
    · exact .ok _
    · exact harity _ _

end Builtin
end Scriptlet
