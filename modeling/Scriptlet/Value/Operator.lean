import Scriptlet.Value.Arithmetic
import Scriptlet.Value.Rendering

/-!
# Operators on values

Equality is defined on all values. A plus sign adds integers, and joins texts as soon as one
side is a string. The other operators take two integers, two strings or two truth values.
-/

namespace Scriptlet

/-- A binary operator applied to two texts; texts are ordered byte by byte. -/
def BinaryOp.onTexts? (op : BinaryOp) (s t : Bytes) : Option Value :=
  match op with
  | .less => some (.bool (s < t))
  | .lessEq => some (.bool (s ≤ t))
  | .greater => some (.bool (t < s))
  | .greaterEq => some (.bool (t ≤ s))
  | _ => none

/-- A binary operator applied to two truth values. -/
def BinaryOp.onBools? (op : BinaryOp) (p q : Bool) : Option Value :=
  match op with
  | .bitAnd => some (.bool (p && q))
  | .bitOr => some (.bool (p || q))
  | .bitXor => some (.bool (p != q))
  | _ => none

namespace Heap

/-- The sum of two integers, or the joined texts if one side is a string (specification §4.1). -/
def add (h : Heap) (a b : Value) : Except Cause Value :=
  match a, b with
  | .int m, .int n => BinaryOp.onInts .add m n
  | .str s, b => .ok (.str (s ++ h.displayText b))
  | a, .str t => .ok (.str (h.displayText a ++ t))
  | a, b => .error (.operandTypes BinaryOp.add.text a.type b.type)

/-- The binary operator spelt `op`, applied to two values (specification §4.1). -/
def binary (h : Heap) (op : Bytes) (a b : Value) : Except Cause Value :=
  let misfit : Cause := .operandTypes op a.type b.type
  match BinaryOp.ofText? op with
  | some .add => h.add a b
  | some .equal => .ok (.bool (a.equals b))
  | some .notEqual => .ok (.bool (!a.equals b))
  | op? =>
    match a, b with
    | .int m, .int n =>
      match op? with
      | some known => known.onInts m n
      | none => .error (.unknownIntOperator op)
    | .bool p, .bool q => ((op?.bind fun known ↦ known.onBools? p q).map .ok).getD (.error misfit)
    | .str s, .str t => ((op?.bind fun known ↦ known.onTexts? s t).map .ok).getD (.error misfit)
    | _, _ => .error misfit

end Heap

/-- The unary operator spelt `op` (specification §4.1): minus on integers, an exclamation mark on
truth values. -/
def Value.unary (op : Bytes) (v : Value) : Except Cause Value :=
  match v with
  | .int n => if op = "-" then negateInt n else .error (.unaryOperandType op v.type)
  | .bool b => if op = "!" then .ok (.bool (!b)) else .error (.unaryOperandType op v.type)
  | _ => .error (.unaryOperandType op v.type)

end Scriptlet
