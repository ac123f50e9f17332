import Scriptlet.Session.Operation
import Scriptlet.Value.Operator

/-!
# Carrying out operations

A session answers one operation at a time. An evaluator's operation that fails still leaves
behind what it did before it failed; any other operation that fails leaves the session as it
was.
-/

namespace Scriptlet

/-- A step of a session that may fail. -/
abbrev SessionM := StateT Session (Except (Option ScriptError))

namespace SessionM

/-- Fails with a script error. -/
def fail {α : Type} (e : ScriptError) : SessionM α := throw (some e)

/-- Refuses an operation that does not fit the session. -/
def misfit {α : Type} : SessionM α := throw none

/-- A result, or a failure at a place. -/
def lift {α : Type} (location : Location) : Except Cause α → SessionM α
  | .ok a => pure a
  | .error cause => fail { cause, location }

/-- The value of a literal. -/
def value (l : Literal) : SessionM Value := do
  let s ← get
  match l.build s.registers s.heap with
  | .ok (v, heap) =>
    set { s with heap }
    pure v
  | .error e => fail e

/-- The values of literals, from left to right. -/
def values (ls : List Literal) : SessionM (List Value) := ls.mapM value

/-- The array that a literal names. -/
def array (l : Literal) : SessionM ArrayRef := do
  match ← value l with
  | .array r => pure r
  | _ => misfit

/-- The dictionary that a literal names. -/
def dict (l : Literal) : SessionM DictRef := do
  match ← value l with
  | .dict r => pure r
  | _ => misfit

/-- The key that a literal names. -/
def key (l : Literal) : SessionM Key := do
  lift {} (dictKey (← value l))

/-- The debug text of a value. -/
def debugText (v : Value) : SessionM Bytes := return (← get).heap.debugText v

/-- Changes the heap of a session. -/
def modifyHeap (f : Heap → Heap) : SessionM Unit := modify fun s ↦ { s with heap := f s.heap }

/-- Keeps a value in a register, if one is named. -/
def keep (into : Option Bytes) (v : Value) : SessionM Unit :=
  match into with
  | some r => modify fun s ↦ { s with registers := s.registers.insert r v }
  | none => pure ()

/-- Keeps a value in a register, if one is named, and answers with it. -/
def answer (into : Option Bytes) (v : Value) : SessionM Answer := do
  keep into v
  return .value (← debugText v)

/-- Answers with the counters of a dictionary. -/
def status (r : DictRef) : SessionM DictStatus := return ((← get).heap.dict r).status

/-- The scope of the host with a name. -/
def scopeNamed (name : Bytes) : SessionM ScopeId := do
  match (← get).scopeNames[name]? with
  | some i => pure i
  | none => misfit

end SessionM

open SessionM

namespace ValueOperation

/-- The next visit of a walk, as an answer. -/
def visitAnswer (h : Heap) (w : Walk) : Answer × Walk :=
  match w.next h with
  | (.entry k v, w) => (.visit (h.debugText k) (h.debugText v) w.exhausted, w)
  | (.finished, w) => (.walkEnd w.exhausted, w)
  | (.invalidated cause, w) =>
    (.walkFailure { cause, location := w.location } w.exhausted, w)

/-- Carries out an operation on values. -/
def run : ValueOperation → SessionM Answer
  | .set register v => do answer (some register) (← value v)
  | drop register => do
    let found := (← get).registers.contains register
    modify fun s ↦ { s with registers := s.registers.erase register }
    return .dropped found
  | describe v => do
    let v ← value v
    let h := (← get).heap
    return .description v.type.text (h.displayText v) (h.debugText v) v.isContainer
  | read container key location into => do
    let c ← value container
    let k ← value key
    answer into (← lift location ((← get).heap.read c k))
  | write container key v location => do
    let c ← value container
    let k ← value key
    let v ← value v
    match (← get).heap.write c k v with
    | .ok heap =>
      modifyHeap fun _ ↦ heap
      return .written (← debugText c) none
    | .error cause => return .written (← debugText c) (some { cause, location })
  | add a b location into => do
    let a ← value a
    let b ← value b
    answer into (← lift location ((← get).heap.add a b))
  | binary op a b location into => do
    let a ← value a
    let b ← value b
    answer into (← lift location ((← get).heap.binary op a b))
  | unary op v location into => do
    answer into (← lift location ((← value v).unary op))
  | equals a b => do
    let a ← value a
    let b ← value b
    return .equals (a.equals b)
  | asKey v location into => do
    answer into (← lift location (dictKey (← value v))).toValue
  | startWalk name v location => do
    let v ← value v
    match Walk.start (← get).heap v location with
    | .ok w =>
      modify fun s ↦ { s with walks := s.walks.insert name w }
      return .walkState w.exhausted
    | .error e => fail e
  | nextVisit name => do
    let s ← get
    match s.walks[name]? with
    | none => misfit
    | some w =>
      let (a, w) := visitAnswer s.heap w
      modify fun s ↦ { s with walks := s.walks.insert name w }
      return a
  | walk v location => do
    let v ← value v
    let h := (← get).heap
    match (Walk.start h v location).bind (·.toList h) with
    | .ok pairs => return .entries (pairs.map fun (k, v) ↦ (h.debugText k, h.debugText v))
    | .error e => fail e
  | push array v => do
    let r ← SessionM.array array
    let v ← value v
    modifyHeap (·.modifyArray r (·.push v))
    return .length ((← get).heap.array r).size
  | resize array length => do
    let r ← SessionM.array array
    modifyHeap (·.modifyArray r fun xs ↦
      xs.take length ++ Array.replicate (length - xs.size) Value.none)
    return .length ((← get).heap.array r).size
  | copyArray array into => do
    let r ← SessionM.array array
    let (copy, heap) := (← get).heap.newArray ((← get).heap.array r)
    modifyHeap fun _ ↦ heap
    answer into (.array copy)
  | copyDict dict into => do
    let r ← SessionM.dict dict
    let (copy, heap) := (← get).heap.newDict ((← get).heap.dict r)
    modifyHeap fun _ ↦ heap
    answer into (.dict copy)
  | setKey dict key v => do
    let r ← SessionM.dict dict
    let k ← SessionM.key key
    let v ← value v
    let (isNew, d) := ((← get).heap.dict r).put k v
    modifyHeap (·.modifyDict r fun _ ↦ d)
    return .inserted isNew (← status r)
  | removeKey dict key quiet => do
    let r ← SessionM.dict dict
    let k ← SessionM.key key
    let d := (← get).heap.dict r
    let (removed, rest) := (d.remove? k).getD (.none, d)
    modifyHeap (·.modifyDict r fun _ ↦ rest)
    let text ← debugText removed
    return .removed (d.contains k) (if quiet then none else some text) (← status r)
  | findKey dict key => do
    let r ← SessionM.dict dict
    let k ← SessionM.key key
    let d := (← get).heap.dict r
    match d.find? k with
    | some v => return .search (d.contains k) (some (← debugText v)) true
    | none => return .search (d.contains k) none true
  | overwriteKey dict key v => do
    let r ← SessionM.dict dict
    let k ← SessionM.key key
    let v ← value v
    let found := (((← get).heap.dict r).find? k).isSome
    modifyHeap (·.modifyDict r (·.overwrite k v))
    return .overwritten found (← status r)
  | keys dict => do
    let r ← SessionM.dict dict
    return .keys (((← get).heap.dict r).keys.map Key.text)
  | slots dict => do
    let r ← SessionM.dict dict
    let h := (← get).heap
    let texts := (h.dict r).slots.toList.map fun s ↦
      ⟨s.key.text, h.debugText s.value, s.live⟩
    return .slots texts (← status r)
  | clear dict => do
    let r ← SessionM.dict dict
    modifyHeap (·.modifyDict r (·.clear))
    return .status (← status r)
  | reserve dict room => do
    let r ← SessionM.dict dict
    modifyHeap (·.modifyDict r (·.reserve room))
    return .status (← status r)
  | takeValues dict => do
    let r ← SessionM.dict dict
    let h := (← get).heap
    let (vs, d) := (h.dict r).takeValues []
    modifyHeap (·.modifyDict r fun _ ↦ d)
    return .taken (← vs.mapM debugText) (← status r)
  | release vs registers => do
    let vs ← values vs
    modify fun s ↦ { s with registers := registers.foldl (·.erase ·) s.registers }
    let s ← get
    let r := (Release.start s.heap s.roots vs).run
    modifyHeap fun _ ↦ r.heap
    return .released r.pending.length

end ValueOperation

namespace ScopeOperation

/-- Carries out an operation on the scopes of the host. -/
def run : ScopeOperation → SessionM Answer
  | enter name parent => do
    let parent ← match parent with
      | some p => some <$> scopeNamed p
      | none => pure none
    modify fun s ↦
      let (i, scopes) := s.scopes.enter parent
      { s with scopes, scopeNames := s.scopeNames.insert name i }
    return .ok
  | bind scope name v => do
    let i ← scopeNamed scope
    let v ← value v
    modify fun s ↦ { s with scopes := s.scopes.bind i name v }
    return .ok
  | assign scope name v location => do
    let i ← scopeNamed scope
    let v ← value v
    match (← get).scopes.owner? i name with
    | some owner =>
      modify fun s ↦ { s with scopes := s.scopes.bind owner name v }
      return .ok
    | none => fail { cause := .unboundVariable name, location }
  | lookup scope name location => do
    let i ← scopeNamed scope
    let s ← get
    let found : Except ScriptError Bytes :=
      match s.scopes.lookup? i name with
      | some v => .ok (s.heap.debugText v)
      | none => .error { cause := .unboundVariable name, location }
    return .variable (s.scopes.has i name) ((s.scopes.owner? i name).map s.scopeName) found

end ScopeOperation

namespace EvaluatorOperation

/-- The literals that an operation uses. -/
def literals : EvaluatorOperation → List Literal
  | invoke _ arguments _ _ => arguments
  | declare _ v | display v => [v]
  | register _ returns _ _ => [returns]
  | load _ | run .. | evaluate .. | lookup .. | has _ => []

/-- How a host function answers: a failure wins over a call, and a call over a value. -/
def hostAnswer (returns : Value) (fails calls : Bytes) : HostAnswer :=
  if fails ≠ [] then .failure fails
  else if calls ≠ [] then .call calls
  else .value returns

/-- Where the value of an operation is kept. -/
def into : EvaluatorOperation → Option Bytes
  | run _ _ into | invoke _ _ _ into | evaluate _ into | lookup _ into => into
  | load _ | declare .. | has _ | display _ | register .. => none

/-- The result of an operation on an evaluator: a value, or an answer without one. -/
inductive Result where
  | value (v : Value)
  | answer (a : Answer)

/-- An outcome without output that changes nothing. -/
def quiet (ev : Evaluator) (h : Heap) (result : Except Stop Result) : Outcome Result :=
  ⟨result, ev, h, []⟩

/-- Carries an operation out on an evaluator; `vs` are the values of its literals. -/
def perform (op : EvaluatorOperation) (ev : Evaluator) (h : Heap) (vs : List Value) :
    Outcome Result :=
  match op with
  | load p =>
    let o := ev.load h p
    { o with result := o.result.map fun _ ↦ .answer .ok }
  | run p entry _ =>
    let o := ev.run h p entry
    { o with result := o.result.map .value }
  | invoke name _ site _ =>
    let o := ev.invoke h name vs site
    { o with result := o.result.map .value }
  | evaluate e _ =>
    let o := ev.evaluate h e
    { o with result := o.result.map .value }
  | declare name _ => quiet (ev.declare name (vs.headD .none)) h (.ok (.answer .ok))
  | lookup name _ => quiet ev h ((ev.lookup name).mapError .error |>.map .value)
  | has name => quiet ev h (.ok (.answer (.offered (ev.hasFunction name) (ev.hasBuiltin name))))
  | display _ => quiet ev h (.ok (.answer (.text (h.displayText (vs.headD .none)))))
  | register name _ fails calls =>
    quiet (ev.register name (hostAnswer (vs.headD .none) fails calls)) h (.ok (.answer .ok))

end EvaluatorOperation

namespace Session

/-- The reply of an evaluator, and the session after it. -/
def stepEvaluator (s : Session) (name : Bytes) (op : EvaluatorOperation) : Reply × Session :=
  match s.evaluators[name]? with
  | none => (.misfit, s)
  | some ev =>
    match Literal.buildAll s.registers op.literals s.heap with
    | .error e => (.evaluated (.error (.error e)) [] ev.depth, s)
    | .ok (vs, h) =>
      let o := op.perform ev h vs
      let s := { s with heap := o.heap, evaluators := s.evaluators.insert name o.evaluator }
      match o.result with
      | .ok (.value v) =>
        (.evaluated (.ok (.value (o.heap.debugText v))) o.output o.evaluator.depth,
          match op.into with
          | some r => { s with registers := s.registers.insert r v }
          | none => s)
      | .ok (.answer a) => (.evaluated (.ok a) o.output o.evaluator.depth, s)
      | .error stop => (.evaluated (.error stop) o.output o.evaluator.depth, s)

/-- The reply to an operation that fails as a whole, and the session after it. -/
def stepWhole (s : Session) (action : SessionM Answer) : Reply × Session :=
  match action s with
  | .ok (a, s) => (.done a, s)
  | .error (some e) => (.failed e, s)
  | .error none => (.misfit, s)

/-- The reply to an operation, and the session after it. -/
def step (s : Session) : Operation → Reply × Session
  | .value op => s.stepWhole op.run
  | .scope op => s.stepWhole op.run
  | .newEvaluator name maxDepth =>
    (.done .ok, { s with evaluators := s.evaluators.insert name (Evaluator.new maxDepth) })
  | .evaluator name op => s.stepEvaluator name op

/-- The replies to a list of operations, and the session after them. -/
def steps (s : Session) : List Operation → List Reply × Session
  | [] => ([], s)
  | op :: ops =>
    let (reply, s) := s.step op
    let (replies, s) := s.steps ops
    (reply :: replies, s)

end Session
end Scriptlet
