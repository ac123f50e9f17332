import Scriptlet.Source.Location
import Scriptlet.Value.Basic

/-!
# Script errors

An error is a cause at a place. Causes are data; the kind of a cause and the sentence that
describes it are each fixed in one function, and the full report adds the place and the
quoted source line.
-/

namespace Scriptlet

/-- The kinds of error that a host can tell apart (specification §7). -/
inductive ErrorKind where
  | indexOutOfRange
  | keyNotFound
  | typeMismatch
  | notIndexable
  | unboundVariable
  | undefinedFunction
  | argumentCountMismatch
  | arithmeticError
  | stackOverflow
  | iterationInvalidated
  | unclassified
  deriving DecidableEq, Inhabited

namespace ErrorKind

/-- The name of a kind, as reports write it. -/
def name : ErrorKind → Bytes
  | .indexOutOfRange => "IndexOutOfRange"
  | .keyNotFound => "KeyNotFound"
  | .typeMismatch => "TypeMismatch"
  | .notIndexable => "NotIndexable"
  | .unboundVariable => "UnboundVariable"
  | .undefinedFunction => "UndefinedFunction"
  | .argumentCountMismatch => "ArgumentCountMismatch"
  | .arithmeticError => "ArithmeticError"
  | .stackOverflow => "StackOverflow"
  | .iterationInvalidated => "IterationInvalidated"
  | .unclassified => "ScriptError"

/-- The numbered kinds in the order of their numbers. -/
def numbered : List ErrorKind :=
  [.indexOutOfRange, .keyNotFound, .typeMismatch, .notIndexable, .unboundVariable,
    .undefinedFunction, .argumentCountMismatch, .arithmeticError, .stackOverflow,
    .iterationInvalidated]

/-- The kind with a number; other numbers classify nothing. -/
def ofNumber (n : Int) : ErrorKind :=
  if 0 ≤ n then numbered[n.toNat]?.getD .unclassified else .unclassified

end ErrorKind

/-- What went wrong. -/
inductive Cause where
  /-- An array index outside `0 … length - 1`. -/
  | indexOutOfRange (index : Int64) (length : Nat)
  /-- An array indexed by something else than an integer. -/
  | arrayIndexType (got : TypeName)
  /-- A dictionary key that is neither integer nor string. -/
  | keyType (got : TypeName)
  /-- A key that a dictionary of `size` entries lacks. -/
  | keyNotFound (key : Key) (size : Nat)
  /-- Reading by index from a value that is no container. -/
  | notIndexable (got : TypeName)
  /-- Writing by index to a value that is no container. -/
  | notIndexAssignable (got : TypeName)
  /-- An exact result outside 64 bits. -/
  | overflow (op : Bytes) (left right : Int64)
  /-- Negating the least integer. -/
  | negationOverflow (operand : Int64)
  /-- The absolute value of the least integer. -/
  | absOverflow (operand : Int64)
  | divisionByZero
  | remainderByZero
  /-- Shifting by a negative count or by more than 63. -/
  | shiftCount (count : Int64)
  /-- A binary operator on types it does not take. -/
  | operandTypes (op : Bytes) (left right : TypeName)
  /-- A text that is no operator on integers. -/
  | unknownIntOperator (op : Bytes)
  /-- A unary operator on a type it does not take. -/
  | unaryOperandType (op : Bytes) (got : TypeName)
  /-- A loop over a value that cannot be walked. -/
  | notIterable (got : TypeName)
  /-- An array that grew or shrank under a walk. -/
  | lengthChanged (expected now : Nat)
  /-- A dictionary that gained or lost keys under a walk. -/
  | keysChanged
  | unboundVariable (name : Bytes)
  | undefinedFunction (name : Bytes)
  /-- A print statement where no function `print` is offered. -/
  | printUnavailable
  /-- A call of a script function with too few or too many arguments. -/
  | functionArity (name : Bytes) (expected got : Nat)
  /-- A call of a built-in function with too few or too many arguments. -/
  | builtinArity (name : Bytes) (expected got : Nat)
  /-- A built-in function given an argument it does not take. -/
  | builtinArgument (name expected : Bytes) (got : TypeName)
  /-- More nested calls than allowed. -/
  | depthExceeded (limit : Nat) (callee : Bytes)
  /-- A condition that is not a truth value. -/
  | conditionType (got : TypeName)
  /-- An expression node without a meaning. -/
  | unsupportedExpression (text : Bytes)
  /-- A statement node without a meaning. -/
  | unsupportedStatement (text : Bytes)
  /-- A function declared inside a body. -/
  | nestedFunction (name : Bytes)
  | unknownAssignment (op : Bytes)
  /-- An assignment to something that is no place. -/
  | notAssignable (target : Bytes)
  /-- Two loop variables over something else than a dictionary. -/
  | twoLoopVariables (got : TypeName)
  /-- An error that a host states in its own words. -/
  | stated (kind : ErrorKind) (detail : Bytes)
  deriving DecidableEq, Inhabited

namespace Cause

/-- The kind of a cause. -/
def kind : Cause → ErrorKind
  | indexOutOfRange .. => .indexOutOfRange
  | keyNotFound .. => .keyNotFound
  | notIndexable .. | notIndexAssignable .. => .notIndexable
  | overflow .. | negationOverflow .. | absOverflow .. | divisionByZero | remainderByZero
  | shiftCount .. => .arithmeticError
  | lengthChanged .. | keysChanged => .iterationInvalidated
  | unboundVariable .. => .unboundVariable
  | undefinedFunction .. | printUnavailable => .undefinedFunction
  | functionArity .. | builtinArity .. => .argumentCountMismatch
  | depthExceeded .. => .stackOverflow
  | stated kind _ => kind
  | arrayIndexType .. | keyType .. | operandTypes .. | unknownIntOperator ..
  | unaryOperandType .. | notIterable .. | builtinArgument .. | conditionType ..
  | unsupportedExpression .. | unsupportedStatement .. | nestedFunction ..
  | unknownAssignment .. | notAssignable .. | twoLoopVariables .. => .typeMismatch

/-- The sentence that describes a cause. -/
def detail : Cause → Bytes
  | indexOutOfRange index length =>
    "Index " ++ Bytes.ofInt64 index ++ " is out of range for array of length " ++
      Bytes.ofNat length ++ "."
  | arrayIndexType got => "Array index must be an `int`, got `" ++ got.text ++ "`."
  | keyType got => "Dictionary keys must be `int` or `string`, got `" ++ got.text ++ "`."
  | keyNotFound key size =>
    "Key " ++ key.text ++ " not found in dictionary of size " ++ Bytes.ofNat size ++ "."
  | notIndexable got => "Cannot index into a value of type `" ++ got.text ++ "`."
  | notIndexAssignable got =>
    "Cannot assign through an index on a value of type `" ++ got.text ++ "`."
  | overflow op left right =>
    "Integer overflow in " ++ Bytes.ofInt64 left ++ " " ++ op ++ " " ++ Bytes.ofInt64 right ++ "."
  | negationOverflow operand => "Integer overflow negating " ++ Bytes.ofInt64 operand ++ "."
  | absOverflow operand => "Integer overflow in abs(" ++ Bytes.ofInt64 operand ++ ")."
  | divisionByZero => "Division by zero."
  | remainderByZero => "Remainder by zero."
  | shiftCount count => "Shift count " ++ Bytes.ofInt64 count ++ " is outside 0..63."
  | operandTypes op left right =>
    "Unsupported operand types for '" ++ op ++ "': `" ++ left.text ++ "` and `" ++
      right.text ++ "`."
  | unknownIntOperator op => "Unknown operator '" ++ op ++ "' for `int` operands."
  | unaryOperandType op got =>
    "Unsupported operand type for unary '" ++ op ++ "': `" ++ got.text ++ "`."
  | notIterable got => "Cannot iterate over a value of type `" ++ got.text ++ "`."
  | lengthChanged expected now =>
    "Array length changed from " ++ Bytes.ofNat expected ++ " to " ++ Bytes.ofNat now ++
      " while iterating over it."
  | keysChanged => "Dictionary keys were added or removed while iterating over it."
  | unboundVariable name => "Variable '" ++ name ++ "' is not defined."
  | undefinedFunction name => "Function '" ++ name ++ "' is not defined."
  | printUnavailable => "No 'print' builtin is registered."
  | functionArity name expected got =>
    "Function '" ++ name ++ "' expects " ++ Bytes.ofNat expected ++ " argument(s) but got " ++
      Bytes.ofNat got ++ "."
  | builtinArity name expected got =>
    name ++ "() takes " ++ Bytes.ofNat expected ++ " argument(s) but got " ++
      Bytes.ofNat got ++ "."
  | builtinArgument name expected got =>
    name ++ "() expects " ++ expected ++ ", got `" ++ got.text ++ "`."
  | depthExceeded limit callee =>
    "Call depth exceeded " ++ Bytes.ofNat limit ++ " while calling '" ++ callee ++ "'."
  | conditionType got => "Condition must be a `bool`, got `" ++ got.text ++ "`."
  | unsupportedExpression text => "Unsupported expression node: " ++ text
  | unsupportedStatement text => "Unsupported statement node: " ++ text
  | nestedFunction name => "Function '" ++ name ++ "' must be declared at program top level."
  | unknownAssignment op => "Unknown assignment operator '" ++ op ++ "'."
  | notAssignable target => "Cannot assign to " ++ target ++ "."
  | twoLoopVariables got => "Two loop variables need a `dictionary`, got `" ++ got.text ++ "`."
  | stated _ detail => detail

end Cause

/-- An error of a script: what went wrong, and where. -/
structure ScriptError where
  cause : Cause
  location : Location := {}
  deriving DecidableEq, Inhabited

namespace ScriptError

/-- The kind of the error. -/
def kind (e : ScriptError) : ErrorKind := e.cause.kind

/-- The sentence that describes the error. -/
def detail (e : ScriptError) : Bytes := e.cause.detail

/-- All there is to report (specification §7): kind and place, the sentence, and the quoted line. -/
def account (e : ScriptError) : Bytes :=
  e.kind.name ++ " at " ++ e.location.text ++ "\n" ++ e.detail ++ "\n --> Traced at:\n" ++
    e.location.trace

/-- The report of an error, as the zero-terminated text that hosts are given. -/
def report (e : ScriptError) : Bytes := e.account.beforeZero

end ScriptError

section Results

variable {ε α β : Type}

/-- Results can be compared if what they hold can. -/
instance Except.decidableEq [DecidableEq ε] [DecidableEq α] : DecidableEq (Except ε α)
  | .ok a, .ok b => decidable_of_iff (a = b) ⟨congrArg Except.ok, Except.ok.inj⟩
  | .error a, .error b => decidable_of_iff (a = b) ⟨congrArg Except.error, Except.error.inj⟩
  | .ok _, .error _ => isFalse fun h ↦ by cases h
  | .error _, .ok _ => isFalse fun h ↦ by cases h

/-- What has a result after all had one half-way. -/
theorem Except.exists_of_bind_eq_ok {x : Except ε α} {f : α → Except ε β} {b : β}
    (h : (x >>= f) = .ok b) : ∃ a, x = .ok a ∧ f a = .ok b := by
  cases x with
  | error e => cases h
  | ok a => exact ⟨a, rfl, h⟩

end Results
end Scriptlet
