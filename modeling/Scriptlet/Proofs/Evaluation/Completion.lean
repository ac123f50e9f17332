import Scriptlet.Evaluation.Interpreter
import Scriptlet.Evaluation.Scripted

/-!
# Completions

The meaning of statements without flags and without fuel. A statement completes normally, with
a break or a continue for the nearest loop, or with the return of a value; a list of
statements goes on while they complete normally, a loop consumes the breaks and continues of
its body, and a call consumes a return. Everything that can complete is judged by one family
of rules. There are no rules for errors: what stops at one does not complete.
-/

namespace Scriptlet

/-- How a statement completes. -/
inductive Completion where
  | normal
  | broke
  | continued
  | returned (v : Value)
  deriving DecidableEq

namespace Completion

/-- Breaks and continues belong into loops. -/
def Fits (inLoop : Bool) : Completion → Prop
  | broke | continued => inLoop = true
  | normal | returned _ => True

/-- What can happen outside of loops can happen inside. -/
theorem Fits.of_outside {c : Completion} {inLoop : Bool} (h : c.Fits false) : c.Fits inLoop := by
  cases c with
  | normal | returned v => exact trivial
  | broke | continued => cases h

end Completion

/-- What is said of a run from one machine to another. -/
inductive Judgement where
  /-- An expression has a value. -/
  | expr (scope : ScopeId) (e : Expr) (v : Value)
  | exprs (scope : ScopeId) (es : List Expr) (vs : List Value)
  /-- The entries of a dictionary have these keys and values. -/
  | entries (scope : ScopeId) (es : List (Expr × Expr)) (pairs : List (Key × Value))
  /-- A statement, inside or outside the loops of its function, completes somehow. -/
  | stmt (scope : ScopeId) (inLoop : Bool) (s : Stmt) (c : Completion)
  | stmts (scope : ScopeId) (inLoop : Bool) (ss : List Stmt) (c : Completion)
  /-- Statements in a scope of their own, where some names are bound. -/
  | block (parent : ScopeId) (bindings : List (Bytes × Value)) (inLoop : Bool)
      (body : List Stmt) (c : Completion)
  /-- The turns of a loop that are left while its condition is true. -/
  | turns (scope : ScopeId) (test : Expr) (body : List Stmt) (c : Completion)
  /-- The turns of a loop for what is left of a walk. -/
  | visits (scope : ScopeId) (vars : LoopVars) (body : List Stmt) (walk : Walk) (c : Completion)
  /-- A function that is called by name returns a value. -/
  | call (name : Bytes) (arguments : List Value) (site : Token) (v : Value)
  | builtin (b : Builtin) (arguments : List Value) (site : Token) (v : Value)

/-- A judgement holds of a run from one machine to another. -/
inductive BigStep (ctx : Context) : Machine → Judgement → Machine → Prop where
  -- Expressions
  | absent : BigStep ctx m (.expr scope .absent .none) m
  | int : BigStep ctx m (.expr scope (.int l n) (.int n)) m
  | str : BigStep ctx m (.expr scope (.str l s) (.str s)) m
  | bool : BigStep ctx m (.expr scope (.bool l b) (.bool b)) m
  | none : BigStep ctx m (.expr scope (.none l) .none) m
  | ident (bound : m.scopes.lookup? scope name = some v) :
      BigStep ctx m (.expr scope (.ident l name) v) m
  | unary (operand : BigStep ctx m (.expr scope e a) m₁) (result : a.unary op = .ok v) :
      BigStep ctx m (.expr scope (.unary l op e) v) m₁
  | binary {op : Bytes} (notAnd : op ≠ "&&") (notOr : op ≠ "||")
      (left : BigStep ctx m (.expr scope e₁ a) m₁) (right : BigStep ctx m₁ (.expr scope e₂ b) m₂)
      (result : m₂.heap.binary op a b = .ok v) :
      BigStep ctx m (.expr scope (.binary l op e₁ e₂) v) m₂
  | andFalse (left : BigStep ctx m (.expr scope e₁ (.bool false)) m₁) :
      BigStep ctx m (.expr scope (.binary l "&&" e₁ e₂) (.bool false)) m₁
  | andTrue (left : BigStep ctx m (.expr scope e₁ (.bool true)) m₁)
      (right : BigStep ctx m₁ (.expr scope e₂ (.bool b)) m₂) :
      BigStep ctx m (.expr scope (.binary l "&&" e₁ e₂) (.bool b)) m₂
  | orTrue (left : BigStep ctx m (.expr scope e₁ (.bool true)) m₁) :
      BigStep ctx m (.expr scope (.binary l "||" e₁ e₂) (.bool true)) m₁
  | orFalse (left : BigStep ctx m (.expr scope e₁ (.bool false)) m₁)
      (right : BigStep ctx m₁ (.expr scope e₂ (.bool b)) m₂) :
      BigStep ctx m (.expr scope (.binary l "||" e₁ e₂) (.bool b)) m₂
  | index (object : BigStep ctx m (.expr scope e₁ c) m₁)
      (key : BigStep ctx m₁ (.expr scope e₂ k) m₂) (result : m₂.heap.read c k = .ok v) :
      BigStep ctx m (.expr scope (.index l e₁ e₂) v) m₂
  | array (elements : BigStep ctx m (.exprs scope es vs) m₁)
      (made : Exec.newArray vs m₁ = .ok v m₂) : BigStep ctx m (.expr scope (.array l es) v) m₂
  | dict (entries : BigStep ctx m (.entries scope es pairs) m₁)
      (made : Exec.newDict (pairs.foldl (fun d (k, v) ↦ d.set k v) {}) m₁ = .ok v m₂) :
      BigStep ctx m (.expr scope (.dict l es) v) m₂
  | call (arguments : BigStep ctx m (.exprs scope (receiver.operands es) vs) m₁)
      (result : BigStep ctx m₁ (.call callee vs { location := l } v) m₂) :
      BigStep ctx m (.expr scope (.call l receiver callee es) v) m₂
  | exprsNil : BigStep ctx m (.exprs scope [] []) m
  | exprsCons (first : BigStep ctx m (.expr scope e v) m₁)
      (rest : BigStep ctx m₁ (.exprs scope es vs) m₂) :
      BigStep ctx m (.exprs scope (e :: es) (v :: vs)) m₂
  | entriesNil : BigStep ctx m (.entries scope [] []) m
  | entriesCons (key : BigStep ctx m (.expr scope e₁ a) m₁) (isKey : dictKey a = .ok k)
      (value : BigStep ctx m₁ (.expr scope e₂ v) m₂)
      (rest : BigStep ctx m₂ (.entries scope es pairs) m₃) :
      BigStep ctx m (.entries scope ((e₁, e₂) :: es) ((k, v) :: pairs)) m₃
  -- Statements
  | absentStmt : BigStep ctx m (.stmt scope inLoop .absent .normal) m
  | declare (value : BigStep ctx m (.expr scope e v) m₁) :
      BigStep ctx m (.stmt scope inLoop (.declare l name e) .normal)
        { m₁ with scopes := m₁.scopes.bind scope name v }
  | assign (plain : AssignOp.ofText? op = some .plain)
      (value : BigStep ctx m (.expr scope e v) m₁) :
      BigStep ctx m (.stmt scope inLoop (.assign l (.ident lt name) op e) .normal)
        { m₁ with scopes := m₁.scopes.assign scope name v }
  | update (compound : AssignOp.ofText? op = some (.compound o))
      (bound : m.scopes.lookup? scope name = some a) (value : BigStep ctx m (.expr scope e b) m₁)
      (result : m₁.heap.binary o.text a b = .ok v) :
      BigStep ctx m (.stmt scope inLoop (.assign l (.ident lt name) op e) .normal)
        { m₁ with scopes := m₁.scopes.assign scope name v }
  | write (plain : AssignOp.ofText? op = some .plain)
      (object : BigStep ctx m (.expr scope e₁ c) m₁) (key : BigStep ctx m₁ (.expr scope e₂ k) m₂)
      (value : BigStep ctx m₂ (.expr scope e₃ v) m₃) (container : c.isContainer = true)
      (written : m₃.heap.write c k v = .ok heap) :
      BigStep ctx m (.stmt scope inLoop (.assign l (.index lt e₁ e₂) op e₃) .normal)
        { m₃ with heap }
  | writeUpdate (compound : AssignOp.ofText? op = some (.compound o))
      (object : BigStep ctx m (.expr scope e₁ c) m₁) (key : BigStep ctx m₁ (.expr scope e₂ k) m₂)
      (value : BigStep ctx m₂ (.expr scope e₃ b) m₃) (container : c.isContainer = true)
      (current : m₃.heap.read c k = .ok a) (result : m₃.heap.binary o.text a b = .ok v)
      (written : m₃.heap.write c k v = .ok heap) :
      BigStep ctx m (.stmt scope inLoop (.assign l (.index lt e₁ e₂) op e₃) .normal)
        { m₃ with heap }
  | print (arguments : BigStep ctx m (.exprs scope es vs) m₁)
      (offered : ctx.builtins[Builtin.print.name]? = some b)
      (result : BigStep ctx m₁ (.builtin b vs { location := l } v) m₂) :
      BigStep ctx m (.stmt scope inLoop (.print l es) .normal) m₂
  | evaluate (value : BigStep ctx m (.expr scope e v) m₁) :
      BigStep ctx m (.stmt scope inLoop (.evaluate l e) .normal) m₁
  | ifTrue (test : BigStep ctx m (.expr scope e (.bool true)) m₁)
      (body : BigStep ctx m₁ (.block scope [] inLoop ss c) m₂) :
      BigStep ctx m (.stmt scope inLoop (.ifThen l e ss) c) m₂
  | ifFalse (test : BigStep ctx m (.expr scope e (.bool false)) m₁) :
      BigStep ctx m (.stmt scope inLoop (.ifThen l e ss) .normal) m₁
  | elseTrue (test : BigStep ctx m (.expr scope e (.bool true)) m₁)
      (body : BigStep ctx m₁ (.block scope [] inLoop ss c) m₂) :
      BigStep ctx m (.stmt scope inLoop (.ifElse l e ss ss') c) m₂
  | elseFalse (test : BigStep ctx m (.expr scope e (.bool false)) m₁)
      (body : BigStep ctx m₁ (.block scope [] inLoop ss' c) m₂) :
      BigStep ctx m (.stmt scope inLoop (.ifElse l e ss ss') c) m₂
  | whileLoop (turns : BigStep ctx m (.turns scope e ss c) m₁) :
      BigStep ctx m (.stmt scope inLoop (.whileLoop l e ss) c) m₁
  | forEach (iterable : BigStep ctx m (.expr scope e v) m₁)
      (fits : ∀ key value, vars = .pair key value → v.type = .dictionary)
      (start : Walk.start m₁.heap v l = .ok walk)
      (visits : BigStep ctx m₁ (.visits scope vars ss walk c) m₂) :
      BigStep ctx m (.stmt scope inLoop (.forEach l vars e ss) c) m₂
  | breakLoop : BigStep ctx m (.stmt scope true (.breakLoop l) .broke) m
  | breakOutside : BigStep ctx m (.stmt scope false (.breakLoop l) .normal) m
  | continueLoop : BigStep ctx m (.stmt scope true (.continueLoop l) .continued) m
  | continueOutside : BigStep ctx m (.stmt scope false (.continueLoop l) .normal) m
  | returnValue (value : BigStep ctx m (.expr scope e v) m₁) :
      BigStep ctx m (.stmt scope inLoop (.returnValue l e) (.returned v)) m₁
  -- Lists of statements
  | nil : BigStep ctx m (.stmts scope inLoop [] .normal) m
  | next (first : BigStep ctx m (.stmt scope inLoop s .normal) m₁)
      (rest : BigStep ctx m₁ (.stmts scope inLoop ss c) m₂) :
      BigStep ctx m (.stmts scope inLoop (s :: ss) c) m₂
  | stop (first : BigStep ctx m (.stmt scope inLoop s c) m₁) (abrupt : c ≠ .normal) :
      BigStep ctx m (.stmts scope inLoop (s :: ss) c) m₁
  | block
      (body : BigStep ctx
        { m with
          scopes := (m.scopes.enter (some parent)).2.bindAll (m.scopes.enter (some parent)).1 bs }
        (.stmts (m.scopes.enter (some parent)).1 inLoop ss c) m₁) :
      BigStep ctx m (.block parent bs inLoop ss c)
        { m₁ with scopes := m₁.scopes.leave (m.scopes.enter (some parent)).1 }
  -- Loops
  | turnsEnd (test : BigStep ctx m (.expr scope e (.bool false)) m₁) :
      BigStep ctx m (.turns scope e ss .normal) m₁
  | turnsBreak (test : BigStep ctx m (.expr scope e (.bool true)) m₁)
      (turn : BigStep ctx m₁ (.block scope [] true ss .broke) m₂) :
      BigStep ctx m (.turns scope e ss .normal) m₂
  | turnsReturn (test : BigStep ctx m (.expr scope e (.bool true)) m₁)
      (turn : BigStep ctx m₁ (.block scope [] true ss (.returned v)) m₂) :
      BigStep ctx m (.turns scope e ss (.returned v)) m₂
  | turnsNext (test : BigStep ctx m (.expr scope e (.bool true)) m₁)
      (turn : BigStep ctx m₁ (.block scope [] true ss c) m₂) (goes : c = .normal ∨ c = .continued)
      (rest : BigStep ctx m₂ (.turns scope e ss k) m₃) : BigStep ctx m (.turns scope e ss k) m₃
  | visitsEnd (finished : walk.next m.heap = (.finished, walk')) :
      BigStep ctx m (.visits scope vars ss walk .normal) m
  | visitsBreak (entry : walk.next m.heap = (.entry key value, walk'))
      (turn : BigStep ctx m
        (.block scope (vars.bindings walk'.overDict key value) true ss .broke) m₁) :
      BigStep ctx m (.visits scope vars ss walk .normal) m₁
  | visitsReturn (entry : walk.next m.heap = (.entry key value, walk'))
      (turn : BigStep ctx m
        (.block scope (vars.bindings walk'.overDict key value) true ss (.returned v)) m₁) :
      BigStep ctx m (.visits scope vars ss walk (.returned v)) m₁
  | visitsNext (entry : walk.next m.heap = (.entry key value, walk'))
      (turn : BigStep ctx m
        (.block scope (vars.bindings walk'.overDict key value) true ss c) m₁)
      (goes : c = .normal ∨ c = .continued)
      (rest : BigStep ctx m₁ (.visits scope vars ss walk' k) m₂) :
      BigStep ctx m (.visits scope vars ss walk k) m₂
  -- Calls
  | callReturn (defined : ctx.functions[name]? = some f) (arity : vs.length = f.parameters.length)
      (room : m.depth < ctx.maxDepth)
      (body : BigStep ctx { m with depth := m.depth + 1 }
        (.block .global (f.parameters.zip vs) false f.body (.returned v)) m₁) :
      BigStep ctx m (.call name vs site v) { m₁ with depth := m₁.depth - 1 }
  | callEnd (defined : ctx.functions[name]? = some f) (arity : vs.length = f.parameters.length)
      (room : m.depth < ctx.maxDepth)
      (body : BigStep ctx { m with depth := m.depth + 1 }
        (.block .global (f.parameters.zip vs) false f.body .normal) m₁) :
      BigStep ctx m (.call name vs site .none) { m₁ with depth := m₁.depth - 1 }
  | callBuiltin (undefined : ctx.functions[name]? = .none)
      (offered : ctx.builtins[name]? = some b) (room : m.depth < ctx.maxDepth)
      (result : BigStep ctx { m with depth := m.depth + 1 } (.builtin b vs site v) m₁) :
      BigStep ctx m (.call name vs site v) { m₁ with depth := m₁.depth - 1 }
  | answer (result : ∀ invoke, b.run invoke vs site m = .ok v m₁) :
      BigStep ctx m (.builtin b vs site v) m₁
  | forward (logged : Builtin.logCall name vs site m = .ok () m₁)
      (result : BigStep ctx m₁ (.call callee vs site v) m₂) :
      BigStep ctx m (.builtin (.host name (.call callee)) vs site v) m₂

namespace Judgement

/-- Completions fit their places: breaks and continues stay in the loop they are meant for. -/
def Fits : Judgement → Prop
  | stmt _ inLoop _ c | stmts _ inLoop _ c | block _ _ inLoop _ c => c.Fits inLoop
  | turns _ _ _ c | visits _ _ _ _ c => c.Fits false
  | _ => True

end Judgement

end Scriptlet
