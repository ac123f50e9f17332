import Scriptlet.Error

/-!
# Integer operators

Integers are 64-bit words, and an operator either gives the exact result or fails: overflow
is found by comparing with the bounds before the operation, never by wrapping. Only a left
shift drops bits.
-/

namespace Scriptlet

/-- The binary operators that have a meaning on values. -/
inductive BinaryOp where
  | add
  | sub
  | mul
  | div
  | rem
  | bitAnd
  | bitOr
  | bitXor
  | shiftLeft
  | shiftRight
  | less
  | lessEq
  | greater
  | greaterEq
  | equal
  | notEqual
  deriving DecidableEq

namespace BinaryOp

/-- The spelling of an operator. -/
def text : BinaryOp → Bytes
  | .add => "+"
  | .sub => "-"
  | .mul => "*"
  | .div => "/"
  | .rem => "%"
  | .bitAnd => "&"
  | .bitOr => "|"
  | .bitXor => "^"
  | .shiftLeft => "<<"
  | .shiftRight => ">>"
  | .less => "<"
  | .lessEq => "<="
  | .greater => ">"
  | .greaterEq => ">="
  | .equal => "=="
  | .notEqual => "!="

/-- Every binary operator. -/
def all : List BinaryOp :=
  [.add, .sub, .mul, .div, .rem, .bitAnd, .bitOr, .bitXor, .shiftLeft, .shiftRight, .less,
    .lessEq, .greater, .greaterEq, .equal, .notEqual]

/-- The operator with a spelling. -/
def ofText? (t : Bytes) : Option BinaryOp := all.find? fun op ↦ op.text = t

/-- Every operator is found by its spelling. -/
theorem ofText?_text (op : BinaryOp) : ofText? op.text = some op := by
  cases op <;> rfl

end BinaryOp

/-- Whether `a + b` lies outside 64 bits. -/
def addOverflows (a b : Int64) : Bool :=
  (0 < b && Int64.maxValue - b < a) || (b < 0 && a < Int64.minValue - b)

/-- Whether `a - b` lies outside 64 bits. -/
def subOverflows (a b : Int64) : Bool :=
  (b < 0 && Int64.maxValue + b < a) || (0 < b && a < Int64.minValue + b)

/-- Whether `a * b` lies outside 64 bits. -/
def mulOverflows (a b : Int64) : Bool :=
  if a = 0 || b = 0 then false
  else if a = -1 then b = Int64.minValue
  else if b = -1 then a = Int64.minValue
  else if 0 < a then
    if 0 < b then Int64.maxValue / b < a else b < Int64.minValue / a
  else
    if 0 < b then a < Int64.minValue / b else a < Int64.maxValue / b

/-- An operator applied to two integers (specification §4.1). -/
def BinaryOp.onInts (op : BinaryOp) (a b : Int64) : Except Cause Value :=
  match op with
  | .add => if addOverflows a b then .error (.overflow op.text a b) else .ok (.int (a + b))
  | .sub => if subOverflows a b then .error (.overflow op.text a b) else .ok (.int (a - b))
  | .mul => if mulOverflows a b then .error (.overflow op.text a b) else .ok (.int (a * b))
  | .div =>
    if b = 0 then .error .divisionByZero
    else if a = Int64.minValue && b = -1 then .error (.overflow op.text a b)
    else .ok (.int (a / b))
  | .rem =>
    if b = 0 then .error .remainderByZero
    else if a = Int64.minValue && b = -1 then .ok (.int 0)
    else .ok (.int (a % b))
  | .bitAnd => .ok (.int (a &&& b))
  | .bitOr => .ok (.int (a ||| b))
  | .bitXor => .ok (.int (a ^^^ b))
  | .shiftLeft => if b < 0 || 63 < b then .error (.shiftCount b) else .ok (.int (a <<< b))
  | .shiftRight => if b < 0 || 63 < b then .error (.shiftCount b) else .ok (.int (a >>> b))
  | .less => .ok (.bool (a < b))
  | .lessEq => .ok (.bool (a ≤ b))
  | .greater => .ok (.bool (b < a))
  | .greaterEq => .ok (.bool (b ≤ a))
  | .equal => .ok (.bool (a = b))
  | .notEqual => .ok (.bool (a ≠ b))

/-- The negative of an integer. -/
def negateInt (n : Int64) : Except Cause Value :=
  if n = Int64.minValue then .error (.negationOverflow n) else .ok (.int (-n))

/-- The absolute value of an integer. -/
def absInt (n : Int64) : Except Cause Value :=
  if n = Int64.minValue then .error (.absOverflow n) else .ok (.int (if n < 0 then -n else n))

end Scriptlet
