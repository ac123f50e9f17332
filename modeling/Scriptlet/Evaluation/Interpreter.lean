import Scriptlet.Evaluation.Builtins
import Scriptlet.Evaluation.Flags
import Scriptlet.Syntax.Text
import Scriptlet.Value.Operator
import Scriptlet.Value.Walk

/-!
# Evaluating expressions and statements

A statement takes the flags as they are and gives them back as it leaves them; a list of
statements stops as soon as a flag is up. A loop runs its body with loop flags of its own and
looks at them after each turn; a call runs its function with fresh flags. Evaluation counts
its nested steps against a fuel, so that it is defined on programs that never end.
-/

namespace Scriptlet

variable [Host]

/-- What an assignment does to the value of its target. -/
inductive AssignOp where
  | plain
  | compound (op : BinaryOp)
  deriving DecidableEq

namespace AssignOp

/-- The spelling: an equals sign behind the operator that is applied first. -/
def text : AssignOp → Bytes
  | plain => "="
  | compound op => op.text ++ "="

/-- Every assignment operator. -/
def all : List AssignOp :=
  [plain, compound .add, compound .sub, compound .mul, compound .div, compound .rem]

/-- The assignment operator with a spelling. -/
def ofText? (t : Bytes) : Option AssignOp := all.find? fun op ↦ op.text = t

/-- The value to store: the new one, or the old one combined with it. -/
def combine (h : Heap) (current new : Value) : AssignOp → Except Cause Value
  | plain => .ok new
  | compound op => h.binary op.text current new

end AssignOp

namespace Exec

/-- A value that has to be a truth value. -/
def condition (location : Location) (v : Value) : Exec Bool :=
  match v with
  | .bool b => pure b
  | v => raise (.conditionType v.type) location

/-- Key and value of an entry of a dictionary at `l`; a key is checked before its value is
evaluated. -/
def entry (eval : Expr → Exec Value) (l : Location) : Expr × Expr → Exec (Key × Value)
  | (key, value) => do
    let k ← eval key
    let k ← lift (if key.isPresent then key.location else l) (dictKey k)
    return (k, ← eval value)

/-- Runs statements until a flag is up. -/
def runBody (exec : Stmt → Flags → Exec Flags) : List Stmt → Flags → Exec Flags
  | [], flags => pure flags
  | s :: ss, flags => do
    let flags ← exec s flags
    if flags.stops then pure flags else runBody exec ss flags

/-- Runs statements in a scope of their own inside `parent`, where some names are bound. -/
def runScoped (parent : ScopeId) (bindings : List (Bytes × Value))
    (exec : ScopeId → Stmt → Flags → Exec Flags) (body : List Stmt) (flags : Flags) :
    Exec Flags :=
  withScope parent fun inner ↦ do
    bindAll inner bindings
    runBody (exec inner) body flags

end Exec

/-- The variables of a loop with their values for one entry of what it walks (specification
§4.2). -/
def LoopVars.bindings (vars : LoopVars) (overDict : Bool) (key value : Value) :
    List (Bytes × Value) :=
  match vars with
  | .single name => [(name, if overDict then key else value)]
  | .pair keyName valueName => [(keyName, key), (valueName, value)]

/-- Whether a walk goes over a dictionary. -/
def Walk.overDict (w : Walk) : Bool :=
  match w.cursor with
  | .dict .. => true
  | _ => false

open Exec

/-- What an evaluation does for a host function, out of how it calls, evaluates, executes and
goes on. -/
def Services.of (context : Context) (invoke : Bytes → List Value → Token → Exec Value)
    (evaluate : ScopeId → Expr → Exec Value) (execute : ScopeId → Stmt → Flags → Exec Flags)
    (resume : Host.Thread → Exec Value) : Services where
  context
  invoke
  evaluate := evaluate .global
  execute statements := discard <| runBody (execute .global) statements {}
  resume

mutual

/-- The value of an expression (specification §4.2); operands are evaluated from left to right. -/
def evalExpr (ctx : Context) (fuel : Nat) (scope : ScopeId) (e : Expr) : Exec Value :=
  match fuel with
  | 0 => throw .outOfFuel
  | fuel + 1 =>
    match e with
    | .absent => pure .none
    | .int _ n => pure (.int n)
    | .str _ s => pure (.str s)
    | .bool _ b => pure (.bool b)
    | .none _ => pure .none
    | .ident l name => lookup scope name l
    | .unary l op operand => do
      let v ← evalExpr ctx fuel scope operand
      lift l (v.unary op)
    | .binary l op left right => do
      let a ← evalExpr ctx fuel scope left
      if op = "&&" then
        if ← condition l a then
          return .bool (← condition l (← evalExpr ctx fuel scope right))
        else return .bool false
      else if op = "||" then
        if ← condition l a then return .bool true
        else return .bool (← condition l (← evalExpr ctx fuel scope right))
      else
        let b ← evalExpr ctx fuel scope right
        lift l (← inspect (·.binary op a b))
    | .index l object key => do
      let container ← evalExpr ctx fuel scope object
      let k ← evalExpr ctx fuel scope key
      lift l (← inspect (·.read container k))
    | .array _ elements => do
      newArray (← elements.mapM (evalExpr ctx fuel scope))
    | .dict l entries => do
      let pairs ← entries.mapM (entry (evalExpr ctx fuel scope) l)
      newDict (pairs.foldl (fun d (k, v) ↦ d.set k v) {})
    | .call l receiver callee arguments => do
      let vs ← (receiver.operands arguments).mapM (evalExpr ctx fuel scope)
      callFunction ctx fuel callee vs { location := l }
    | .bare l => raise (.unsupportedExpression e.text) l

/-- Runs a statement (specification §4.2); the flags it is given are those of the statements before
it. -/
def execStmt (ctx : Context) (fuel : Nat) (scope : ScopeId) (s : Stmt) (flags : Flags) :
    Exec Flags :=
  match fuel with
  | 0 => throw .outOfFuel
  | fuel + 1 =>
    match s with
    | .absent => pure flags
    | .declare _ name value => do
      declare scope name (← evalExpr ctx fuel scope value)
      pure flags
    | .assign l target op value =>
      match AssignOp.ofText? op with
      | none => raise (.unknownAssignment op) l
      | some op =>
        match target with
        | .ident lt name => do
          let current ← if op = .plain then pure .none else lookup scope name lt
          let new ← evalExpr ctx fuel scope value
          assign scope name (← lift l (← inspect fun h ↦ op.combine h current new))
          pure flags
        | .index lt object key => do
          let container ← evalExpr ctx fuel scope object
          let k ← evalExpr ctx fuel scope key
          let new ← evalExpr ctx fuel scope value
          if container.isContainer then
            let current ←
              if op = .plain then pure .none else lift lt (← inspect (·.read container k))
            let v ← lift l (← inspect fun h ↦ op.combine h current new)
            let heap ← lift lt (← inspect (·.write container k v))
            modifyHeap fun _ ↦ heap
            pure flags
          else raise (.notIndexAssignable container.type) lt
        | target => raise (.notAssignable target.text) l
    | .print l arguments => do
      let vs ← arguments.mapM (evalExpr ctx fuel scope)
      match (← known ctx).builtins[Builtin.print.name]? with
      | some b =>
        let _ ← b.run (.of ctx (callFunction ctx fuel) (evalExpr ctx fuel) (execStmt ctx fuel)
          (resumeThread ctx fuel)) vs { location := l }
        pure flags
      | none => raise .printUnavailable l
    | .evaluate _ e => do
      let _ ← evalExpr ctx fuel scope e
      pure flags
    | .ifThen l c body => do
      if ← condition l (← evalExpr ctx fuel scope c) then
        runScoped scope [] (execStmt ctx fuel) body flags
      else pure flags
    | .ifElse l c body otherwise => do
      if ← condition l (← evalExpr ctx fuel scope c) then
        runScoped scope [] (execStmt ctx fuel) body flags
      else runScoped scope [] (execStmt ctx fuel) otherwise flags
    | .whileLoop l c body =>
      return (← repeatWhile ctx fuel scope l c body flags.enterLoop).leaveLoop flags
    | .forEach l vars iterable body => do
      let v ← evalExpr ctx fuel scope iterable
      match vars, v.type with
      | .single _, _ | .pair _ _, .dictionary =>
        match ← inspect fun h ↦ Walk.start h v l with
        | .ok walk =>
          return (← visitEach ctx fuel scope vars body walk flags.enterLoop).leaveLoop flags
        | .error e => throw (.error e)
      | .pair _ _, type => raise (.twoLoopVariables type) l
    | .breakLoop _ => pure flags.raiseBreak
    | .continueLoop _ => pure flags.raiseContinue
    | .returnValue _ value => return flags.raiseReturn (← evalExpr ctx fuel scope value)
    | .function l name _ _ => raise (.nestedFunction name) l
    | .bare l => raise (.unsupportedStatement s.text) l

/-- Runs a body as long as a condition holds. The flags are those of the loop itself. -/
def repeatWhile (ctx : Context) (fuel : Nat) (scope : ScopeId) (l : Location) (c : Expr)
    (body : List Stmt) (flags : Flags) : Exec Flags :=
  match fuel with
  | 0 => throw .outOfFuel
  | fuel + 1 => do
    if ← condition l (← evalExpr ctx fuel scope c) then
      let flags ← runScoped scope [] (execStmt ctx fuel) body flags
      if flags.didReturn || flags.didBreak then pure flags
      else repeatWhile ctx fuel scope l c body flags.nextTurn
    else pure flags

/-- Runs a body for every entry that is left of a walk (specification §4.2). The flags are those of
the loop. -/
def visitEach (ctx : Context) (fuel : Nat) (scope : ScopeId) (vars : LoopVars)
    (body : List Stmt) (walk : Walk) (flags : Flags) : Exec Flags :=
  match fuel with
  | 0 => throw .outOfFuel
  | fuel + 1 => do
    match ← inspect fun h ↦ walk.next h with
    | (.finished, _) => pure flags
    | (.invalidated cause, _) => raise cause walk.location
    | (.entry key value, walk) =>
      let bindings := vars.bindings walk.overDict key value
      let flags ← runScoped scope bindings (execStmt ctx fuel) body flags
      if flags.didReturn || flags.didBreak then pure flags
      else visitEach ctx fuel scope vars body walk flags.nextTurn

/-- Calls a function by name (specification §4.2); functions of the script come before built-in
ones. A script function sees its parameters and the global scope only, and has flags of its own. -/
def callFunction (ctx : Context) (fuel : Nat) (name : Bytes) (arguments : List Value)
    (site : Token) : Exec Value :=
  match fuel with
  | 0 => throw .outOfFuel
  | fuel + 1 => do
    let now ← known ctx
    match now.functions[name]? with
    | some f =>
      if arguments.length = f.parameters.length then
        withFrame ctx f.name site.location do
          let bindings := f.parameters.zip arguments
          let flags ← runScoped .global bindings (execStmt ctx fuel) f.body {}
          pure flags.returnValue
      else raise (.functionArity f.name f.parameters.length arguments.length) site.location
    | none =>
      match now.builtins[name]? with
      | some b =>
        withFrame ctx name site.location <|
          b.run (.of ctx (callFunction ctx fuel) (evalExpr ctx fuel) (execStmt ctx fuel)
            (resumeThread ctx fuel)) arguments site
      | none => raise (.undefinedFunction name) site.location

/-- Goes on with what a host function does. -/
def resumeThread (ctx : Context) (fuel : Nat) (t : Host.Thread) : Exec Value :=
  match fuel with
  | 0 => throw .outOfFuel
  | fuel + 1 =>
    (Host.resume t).exec (.of ctx (callFunction ctx fuel) (evalExpr ctx fuel) (execStmt ctx fuel)
      (resumeThread ctx fuel))

end

/-- What an evaluation with some fuel does for a host function. -/
def Context.services (ctx : Context) (fuel : Nat) : Services :=
  .of ctx (callFunction ctx fuel) (evalExpr ctx fuel) (execStmt ctx fuel) (resumeThread ctx fuel)

end Scriptlet
