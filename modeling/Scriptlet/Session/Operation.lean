import Scriptlet.Session.Basic

/-!
# What a host can do

Each operation of a session is a value of one of these types, and so is each answer. An
operation on values either fails as a whole, and then changes nothing, or is carried out.
-/

namespace Scriptlet

/-- An operation on values. -/
inductive ValueOperation where
  /-- Keeps a value in a register. -/
  | set (register : Bytes) (v : Literal)
  /-- Gives a register up. -/
  | drop (register : Bytes)
  /-- Describes a value. -/
  | describe (v : Literal)
  | read (container key : Literal) (location : Location) (into : Option Bytes)
  | write (container key v : Literal) (location : Location)
  | add (a b : Literal) (location : Location) (into : Option Bytes)
  | binary (op : Bytes) (a b : Literal) (location : Location) (into : Option Bytes)
  | unary (op : Bytes) (v : Literal) (location : Location) (into : Option Bytes)
  | equals (a b : Literal)
  /-- Turns a value into a key and back. -/
  | asKey (v : Literal) (location : Location) (into : Option Bytes)
  /-- Starts a walk under a name. -/
  | startWalk (name : Bytes) (v : Literal) (location : Location)
  | nextVisit (name : Bytes)
  /-- Walks a value from start to end. -/
  | walk (v : Literal) (location : Location)
  | push (array v : Literal)
  | resize (array : Literal) (length : Nat)
  | copyArray (array : Literal) (into : Option Bytes)
  | copyDict (dict : Literal) (into : Option Bytes)
  | setKey (dict key v : Literal)
  /-- Removes an entry; a quiet removal does not hand out its value. -/
  | removeKey (dict key : Literal) (quiet : Bool)
  | findKey (dict key : Literal)
  /-- Writes over the value of a key, if it is present. -/
  | overwriteKey (dict key v : Literal)
  | keys (dict : Literal)
  | slots (dict : Literal)
  | clear (dict : Literal)
  | reserve (dict : Literal) (room : Nat)
  | takeValues (dict : Literal)
  /-- Gives registers up and releases values. -/
  | release (vs : List Literal) (registers : List Bytes)

/-- An operation on the scopes of the host. -/
inductive ScopeOperation where
  | enter (name : Bytes) (parent : Option Bytes)
  | bind (scope name : Bytes) (v : Literal)
  | assign (scope name : Bytes) (v : Literal) (location : Location)
  | lookup (scope name : Bytes) (location : Location)

/-- An operation on one evaluator. -/
inductive EvaluatorOperation where
  | load (p : Option Program)
  | run (p : Option Program) (entry : Bytes) (into : Option Bytes)
  | invoke (name : Bytes) (arguments : List Literal) (site : Token) (into : Option Bytes)
  | evaluate (e : Expr) (into : Option Bytes)
  | declare (name : Bytes) (v : Literal)
  | lookup (name : Bytes) (into : Option Bytes)
  | has (name : Bytes)
  | display (v : Literal)
  /-- Offers a host function, which may return a value, fail, or call another function. -/
  | register (name : Bytes) (returns : Literal) (fails calls : Bytes)

/-- An operation of a session. -/
inductive Operation where
  | value (op : ValueOperation)
  | scope (op : ScopeOperation)
  | newEvaluator (name : Bytes) (maxDepth : Nat)
  | evaluator (name : Bytes) (op : EvaluatorOperation)

/-- The counters of a dictionary. -/
structure DictStatus where
  size : Nat
  isEmpty : Bool
  tombstones : Nat
  version : Nat
  deriving DecidableEq

/-- The counters of a dictionary as it is. -/
def Dictionary.status (d : Dictionary) : DictStatus :=
  ⟨d.size, d.isEmpty, d.tombstones, d.version⟩

/-- A slot as it is shown. -/
structure SlotText where
  key : Bytes
  value : Bytes
  live : Bool
  deriving DecidableEq

/-- The answer to an operation that went through. Values are shown by their debug text. -/
inductive Answer where
  | ok
  | value (text : Bytes)
  | dropped (found : Bool)
  | description (type display debug : Bytes) (isContainer : Bool)
  /-- A container after a write, and why the write failed if it did. -/
  | written (container : Bytes) (failure : Option ScriptError)
  | equals (b : Bool)
  | walkState (exhausted : Bool)
  | visit (key value : Bytes) (exhausted : Bool)
  | walkEnd (exhausted : Bool)
  | walkFailure (e : ScriptError) (exhausted : Bool)
  | entries (pairs : List (Bytes × Bytes))
  | length (n : Nat)
  | inserted (isNew : Bool) (status : DictStatus)
  | removed (found : Bool) (value : Option Bytes) (status : DictStatus)
  /-- What a key search finds: membership, the value, and whether both ways of asking agree. -/
  | search (contains : Bool) (value : Option Bytes) (same : Bool)
  | overwritten (found : Bool) (status : DictStatus)
  | keys (texts : List Bytes)
  | slots (slots : List SlotText) (status : DictStatus)
  | status (status : DictStatus)
  | taken (texts : List Bytes) (status : DictStatus)
  | released (left : Nat)
  /-- A variable: whether it is bound, the scope that binds it, and its value. -/
  | variable (bound : Bool) (owner : Option Bytes) (value : Except ScriptError Bytes)
  | offered (function builtin : Bool)
  | text (text : Bytes)

/-- What the host learns of an operation. -/
inductive Reply where
  | done (answer : Answer)
  | failed (e : ScriptError)
  /-- An evaluator's reply tells also what was written and how many calls are active. -/
  | evaluated (result : Except Stop Answer) (output : Bytes) (depth : Nat)
  /-- The operation names something the session does not have, or a value of a wrong type. -/
  | misfit

end Scriptlet
