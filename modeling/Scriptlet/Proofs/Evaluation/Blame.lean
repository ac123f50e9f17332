import Scriptlet.Proofs.Evaluation.Entry
import Scriptlet.Proofs.Evaluation.Piece

/-!
# Where errors point

An error that ends a run of a program carries the place of a node: of the program or of a function
that was known before. What kind of error it is fixes what kind of node it can be, and a variable
that is not bound is named by the node that the error points at. Only the call of the entry, which
no node makes, is reported at the place of the program.
-/

namespace Scriptlet

open Exec Plan Moment

namespace Node

/-- The name, if the node is an identifier. -/
def ident? : Node → Option Bytes
  | expr (.ident _ name) => some name
  | _ => none

/-- Whether the node is an index expression, read or assigned to. -/
def isIndex : Node → Bool
  | expr (.index ..) => true
  | _ => false

/-- Whether the node is a call. -/
def isCall : Node → Bool
  | expr (.call ..) => true
  | _ => false

/-- Whether the node applies a unary or a binary operator. -/
def isOperator : Node → Bool
  | expr (.unary ..) | expr (.binary ..) => true
  | _ => false

/-- Whether the node is an assignment that combines the old value with the new one. -/
def isCompound : Node → Bool
  | stmt (.assign _ _ text _) => (AssignOp.ofText? text).any (· ≠ .plain)
  | _ => false

/-- Whether the node is a loop over a value. -/
def isForEach : Node → Bool
  | stmt (.forEach ..) => true
  | _ => false

/-- Whether a failure of a kind may be put down to the node. -/
def Fits (n : Node) : ErrorKind → Prop
  | .unboundVariable => n.ident?.isSome = true
  | .indexOutOfRange | .notIndexable => n.isIndex = true
  | .keyNotFound => n.isIndex = true ∨ n.isCall = true
  | .iterationInvalidated => n.isForEach = true
  | .undefinedFunction | .argumentCountMismatch | .stackOverflow => n.isCall = true
  | .arithmeticError => n.isOperator = true ∨ n.isCall = true ∨ n.isCompound = true
  | .typeMismatch => n.isPresent = true
  | .unclassified => False

/-- Whether a failure for this cause may be put down to the node. A variable that is not bound
is the one that the node names. -/
def Suits (n : Node) (cause : Cause) : Prop :=
  n.Fits cause.kind ∧
    (cause.kind = .unboundVariable → ∃ name, n.ident? = some name ∧ cause = .unboundVariable name)

private theorem isPresent_of_isCall {n : Node} (hn : n.isCall = true) : n.isPresent = true := by
  cases n with
  | expr e => cases e <;> first | rfl | cases hn
  | stmt s => cases hn
  | program p => rfl

end Node

namespace Exec

variable {α β : Type} {l : Location} {kinds : List ErrorKind}

/-- A computation that fails with an error does so at the place `l`, for a reason of one of these
kinds. -/
def FailsAt (l : Location) (kinds : List ErrorKind) (x : Exec α) : Prop :=
  ∀ m e m', x m = .error (.error e) m' → e.location = l ∧ e.kind ∈ kinds

namespace FailsAt

private theorem raise {cause : Cause} (h : kinds.contains cause.kind = true) :
    FailsAt l kinds (raise cause l : Exec α) := by
  intro m e m' he
  cases he
  exact ⟨rfl, List.contains_iff_mem.mp h⟩

private theorem lift {x : Except Cause α} (hx : FailsWith kinds x) :
    FailsAt l kinds (lift l x) := by
  intro m e m' he
  cases x with
  | ok a => cases he
  | error cause =>
    cases he
    exact ⟨rfl, hx cause rfl⟩

private theorem operate {f : Heap → Except Cause α} (hf : ∀ h, FailsWith kinds (f h)) :
    FailsAt l kinds (operate l f) := by
  intro m e m' h
  exact lift (hf m.heap) m e m' h

private theorem condition (v : Value) : FailsAt l [.typeMismatch] (condition l v) := by
  intro m e m' he
  cases v with
  | bool b => cases he
  | _ =>
    cases he
    exact ⟨rfl, List.mem_singleton_self _⟩

private theorem reply {site : Token} {respond : Heap → Except Cause Builtin.Response}
    (h : ∀ h, FailsWith kinds (respond h)) :
    FailsAt site.location kinds (Builtin.reply site respond) := by
  intro m e m' he
  simp only [Builtin.reply] at he
  cases hr : respond m.heap with
  | ok r =>
    rw [hr] at he
    cases he
  | error cause =>
    rw [hr] at he
    cases he
    exact ⟨rfl, h _ cause hr⟩

private theorem mono {x : Exec α} {more : List ErrorKind} (hx : FailsAt l kinds x)
    (h : kinds ⊆ more) :
    FailsAt l more x := fun m e m' he ↦ ⟨(hx m e m' he).1, h (hx m e m' he).2⟩

end FailsAt

private theorem consult_eq_error {f : Heap → Except ScriptError α} {m m' : Machine}
    {e : ScriptError} (h : consult f m = .error (.error e) m') : f m.heap = .error e := by
  simp only [consult] at h
  cases hr : f m.heap with
  | ok a =>
    rw [hr] at h
    cases h
  | error e' =>
    rw [hr] at h
    cases h
    rfl

end Exec

private theorem Walk.error_of_start {h : Heap} {v : Value} {l : Location} {e : ScriptError}
    (he : start h v l = .error e) : e.location = l ∧ e.kind = .typeMismatch := by
  unfold start at he
  split at he
  · cases he
  · cases he
    exact ⟨rfl, rfl⟩

private theorem Walk.location_of_visit?_eq_error {w : Walk} {h : Heap} {e : ScriptError}
    (he : w.visit? h = .error e) : e.location = w.location := by
  unfold visit? at he
  split at he
  · cases he
  · cases he
    rfl
  · cases he

private theorem Builtin.defaultTable_print : defaultTable[print.name]? = some .print := rfl

/-- A node of the territory that an error can be put down to. -/
def Territory.Blames (T : Territory) (e : ScriptError) (n : Node) : Prop :=
  T.nodes n ∧ n.isPresent = true ∧ n.location = e.location ∧ n.Suits e.cause

/-- The places that functions are called from are those of call expressions. -/
def Territory.CallsFromNodes (T : Territory) : Prop :=
  ∀ l, T.sites l → ∃ n, T.nodes n ∧ n.isCall = true ∧ n.location = l

section Pieces

variable {ctx : Context} {T : Territory} {α : Type} {x : Exec α} {m m' : Machine}
  {e : ScriptError} {n : Node} {kinds : List ErrorKind}

private theorem blames_of_failsAt (here : T.nodes n) (present : n.isPresent = true)
    (hx : FailsAt n.location kinds x)
    (hkinds : ∀ k ∈ kinds, n.Fits k ∧ k ≠ .unboundVariable)
    (he : x m = .error (.error e) m') : ∃ n, T.Blames e n := by
  obtain ⟨hl, hk⟩ := hx m e m' he
  obtain ⟨hfits, hne⟩ := hkinds _ hk
  exact ⟨n, here, present, hl.symm, hfits, fun h ↦ absurd h hne⟩

private theorem blames_misfit (here : T.nodes n) (present : n.isPresent = true)
    (hl : e.location = n.location) (hk : e.kind = .typeMismatch) : ∃ n, T.Blames e n := by
  rw [ScriptError.kind] at hk
  refine ⟨n, here, present, hl.symm, ?_, ?_⟩
  · rw [hk]
    exact present
  · rw [hk]
    exact ErrorKind.noConfusion

private theorem fits_of_isCall (hn : n.isCall = true) :
    ∀ k ∈ [ErrorKind.argumentCountMismatch, .typeMismatch, .keyNotFound, .arithmeticError,
      .undefinedFunction, .stackOverflow], n.Fits k ∧ k ≠ .unboundVariable := by
  have hpresent := Node.isPresent_of_isCall hn
  simp [Node.Fits, hn, hpresent]

private theorem blames_builtin (hT : T.CallsFromNodes) {site : Token}
    (here : T.sites site.location) (hx : FailsAt site.location Builtin.errorKinds x)
    (he : x m = .error (.error e) m') : ∃ n, T.Blames e n := by
  obtain ⟨n, hn, hcall, hl⟩ := hT _ here
  rw [← hl] at hx
  exact blames_of_failsAt hn (Node.isPresent_of_isCall hcall) (hx.mono (by decide))
    (fits_of_isCall hcall) he

/-- A piece that fails can be put down to a node. -/
theorem Piece.exists_blames (hT : T.CallsFromNodes)
    (hprint : ctx.builtins[Builtin.print.name]? ≠ none) (hx : Piece ctx T x m)
    (he : x m = .error (.error e) m') : ∃ n, T.Blames e n := by
  cases hx with
  | pure | newArray | newDict | declare | bindAll | assign | store | logCall => cases he
  | @lookup l name here scope =>
    simp only [Exec.lookup] at he
    split at he
    · cases he
    · cases he
      exact ⟨_, here, rfl, rfl, rfl, fun _ ↦ ⟨name, rfl, rfl⟩⟩
  | unary here v =>
    exact blames_of_failsAt here rfl (FailsAt.lift (FailsWith.unary _ v))
      (by simp [Node.Fits, Node.isOperator, Node.isPresent, Expr.isPresent]) he
  | binary here a b =>
    exact blames_of_failsAt here rfl (FailsAt.operate fun h ↦ FailsWith.binary h _ a b)
      (by simp [Node.Fits, Node.isOperator, Node.isPresent, Expr.isPresent]) he
  | read here container k =>
    exact blames_of_failsAt here rfl (FailsAt.operate fun h ↦ FailsWith.read h container k)
      (by simp [Node.Fits, Node.isIndex, Node.isPresent, Expr.isPresent]) he
  | write here container k v =>
    exact blames_of_failsAt here rfl (FailsAt.operate fun h ↦ FailsWith.write h container k v)
      (by simp [Node.Fits, Node.isIndex, Node.isPresent, Expr.isPresent]) he
  | notIndexAssignable here type =>
    cases he
    exact ⟨_, here, rfl, rfl, rfl, ErrorKind.noConfusion⟩
  | condition here present v =>
    exact blames_of_failsAt here present (FailsAt.condition v) (by simp [Node.Fits, present]) he
  | key here present v =>
    exact blames_of_failsAt here present (FailsAt.lift (FailsWith.dictKey v))
      (by simp [Node.Fits, present]) he
  | misfit here present kind =>
    cases he
    exact blames_misfit here present rfl kind
  | @combine l target value text op here known current new =>
    -- A plain assignment stores the value as it is.
    cases op with
    | plain => cases he
    | compound op =>
      exact blames_of_failsAt here rfl
        (FailsAt.operate fun h ↦ FailsWith.combine h current new (.compound op))
        (by simp [Node.Fits, Node.isCompound, Node.isPresent, Stmt.isPresent, known]) he
  | startWalk here v =>
    obtain ⟨hl, hk⟩ := Walk.error_of_start (consult_eq_error he)
    exact blames_misfit here rfl hl hk
  | @visit w vars iterable body here =>
    have hv := consult_eq_error he
    have hk := w.kind_of_visit?_eq_error m.heap e hv
    refine ⟨_, here, rfl, (Walk.location_of_visit?_eq_error hv).symm, ?_, ?_⟩
    · rw [show e.cause.kind = _ from hk]
      rfl
    · rw [show e.cause.kind = _ from hk]
      exact ErrorKind.noConfusion
  | noPrint none l => exact absurd none hprint
  | native response here =>
    rcases here with rfl | here
    · -- Printing does not fail.
      cases response
      cases he
    · exact blames_builtin hT here (FailsAt.reply response.failsWith) he
  | failure here detail => exact blames_builtin hT here (FailsAt.raise rfl) he

end Pieces

namespace Moment

variable {ctx : Context} {T : Territory} {p q : Moment} {e : ScriptError}

/-- A moment that fails of itself can put it down to a node. -/
theorem Origin.exists_blames (hT : T.CallsFromNodes)
    (hprint : ctx.builtins[Builtin.print.name]? ≠ none) (hq : q.Within ctx T)
    (ho : Origin ctx q e) : ∃ n, T.Blames e n := by
  have hcall (l : Location) (hl : T.sites l) (he : e.location = l)
      (hk : e.kind ∈ [ErrorKind.argumentCountMismatch, .typeMismatch, .keyNotFound,
        .arithmeticError, .undefinedFunction, .stackOverflow]) : ∃ n, T.Blames e n := by
    obtain ⟨n, hn, hcalls, hat⟩ := hT l hl
    obtain ⟨hfits, hne⟩ := fits_of_isCall hcalls _ hk
    exact ⟨n, hn, Node.isPresent_of_isCall hcalls, hat.trans he.symm, hfits,
      fun h ↦ absurd h hne⟩
  cases ho with
  | piece fuel m fails => exact Piece.exists_blames hT hprint hq fails
  | unresolved fuel m unresolved =>
    exact hcall _ hq rfl (((ctx.failsWith_resolve _ _ _ _).mono (by decide)) _ unresolved)
  | refused fuel m resolved full => exact hcall _ hq rfl (List.contains_iff_mem.mp rfl)

private theorem StopsWith.bind_cases {α β : Type} {fuel : Nat} {x : Plan α} {rest : α → Plan β}
    {m : Machine} {stop : Stop} (hs : StopsWith ctx ⟨fuel, x >>= rest, m⟩ stop) :
    StopsWith ctx ⟨fuel, x, m⟩ stop ∨
      ∃ a m₁, x.run ctx fuel m = .ok a m₁ ∧ StopsWith ctx ⟨fuel, rest a, m₁⟩ stop := by
  obtain ⟨m', hs⟩ := hs
  cases hr : x.run ctx fuel m with
  | ok a m₁ =>
    rw [ending, run_bind_of_ok hr] at hs
    exact Or.inr ⟨a, m₁, rfl, m', hs⟩
  | error stop' m₁ =>
    rw [ending, run_bind_of_error hr] at hs
    cases hs
    exact Or.inl ⟨m', hr⟩

/-- A run that fails and keeps to the nodes of a territory can be blamed on one of them. -/
theorem StopsWith.exists_blames (hclosed : T.Closed ctx) (hT : T.CallsFromNodes)
    (hprint : ctx.builtins[Builtin.print.name]? ≠ none) (hp : p.Within ctx T)
    (hs : p.StopsWith ctx (.error e)) : ∃ n, T.Blames e n := by
  obtain ⟨q, hq, ho⟩ := hs.exists_origin
  exact ho.exists_blames hT hprint (hq.within hclosed hp)

private theorem StopsWith.call_cases {name : Bytes} {f : Function} {arguments : List Value}
    {site : Token} {fuel : Nat} {m : Machine} (hf : ctx.functions[name]? = some f)
    (hs : StopsWith ctx ⟨fuel, .call name arguments site, m⟩ (.error e)) :
    (arguments.length ≠ f.parameters.length ∧
        e = ⟨.functionArity f.name f.parameters.length arguments.length, site.location⟩) ∨
      (ctx.maxDepth ≤ m.depth ∧ e = ⟨.depthExceeded ctx.maxDepth f.name, site.location⟩) ∨
      ∃ fuel' m', StopsWith ctx ⟨fuel', f.plan arguments, m'⟩ (.error e) := by
  obtain ⟨m', hs⟩ := hs
  cases fuel with
  | zero =>
    simp only [ending, Plan.run, callFunction] at hs
    cases hs
  | succ fuel =>
    have hresolve : ctx.resolve name arguments site m.lessons =
        if arguments.length = f.parameters.length then .ok ⟨f.name, f.plan arguments⟩
        else .error (.functionArity f.name f.parameters.length arguments.length) := by
      simp only [Context.resolve, ctx.after_lessons, hf]
    by_cases arity : arguments.length = f.parameters.length
    · rw [if_pos arity] at hresolve
      by_cases full : ctx.maxDepth ≤ m.depth
      · rw [ending_call_of_full hresolve full] at hs
        cases hs
        exact Or.inr (Or.inl ⟨full, rfl⟩)
      · simp only [ending, Plan.run, callFunction_succ, hresolve, withFrame, if_neg full] at hs
        obtain ⟨m₁, hs⟩ := exists_of_andThenAlways_eq_error hs
        exact Or.inr (Or.inr ⟨fuel, _, m₁, hs⟩)
    · rw [if_neg arity] at hresolve
      rw [ending_call_of_unresolved hresolve] at hs
      cases hs
      exact Or.inl ⟨arity, rfl⟩

end Moment

namespace Evaluator

variable {ev : Evaluator} {p : Program}

/-- The nodes of a program and of the bodies of the functions that the evaluator knows. -/
def Knows (ev : Evaluator) (p : Program) (n : Node) : Prop :=
  (Node.program p).Below n ∨ ∃ (name : Bytes) (f : Function),
    ev.context.functions[name]? = some f ∧ ∃ s ∈ f.body, (Node.stmt s).Below n

/-- What a run of the program keeps to. -/
def territory (ev : Evaluator) (p : Program) : Territory where
  nodes := ev.Knows p
  sites l := ∃ n, ev.Knows p n ∧ n.isCall = true ∧ n.location = l

private theorem below_of_mem_functions {f : Function} (hf : f ∈ p.functions) {s : Stmt}
    (hs : s ∈ f.body) : (Node.program p).Below (.stmt s) := by
  obtain ⟨t, ht, htf⟩ := List.mem_filterMap.mp hf
  cases t <;> cases htf
  exact (Node.Below.of_mem_body ht).child (Node.stmt_mem_children hs)

/-- A run of the program keeps to the nodes known. -/
theorem closed_territory (hb : ev.context.builtins = Builtin.defaultTable) :
    (ev.territory p).Closed (ev.learn (some p)).context where
  children ha hchild := by
    rcases ha with h | ⟨name, f, hf, s, hs, h⟩
    · exact Or.inl (h.child hchild)
    · exact Or.inr ⟨name, f, hf, s, hs, h.child hchild⟩
  call h := ⟨_, h, rfl, rfl⟩
  print _ hprint := by
    change ev.context.builtins[_]? = _ at hprint
    rw [hb, Builtin.defaultTable_print] at hprint
    cases hprint
    exact Or.inl rfl
  body hf hs := by
    replace hf := (ev.context.getElem?_functions_define p _).symm.trans hf
    rcases Option.or_eq_some_iff.mp hf with hlast | ⟨-, hknown⟩
    · exact Or.inl (below_of_mem_functions (Program.mem_of_lastDeclaration hlast) hs)
    · exact Or.inr ⟨_, _, hknown, _, hs, Node.Below.refl _⟩

private theorem result_run_eq_error {h : Heap} {entry : Bytes} {e : ScriptError}
    (he : (ev.run h (some p) entry).result = .error (.error e)) :
    let ctx := (ev.learn (some p)).context
    StopsWith ctx ⟨ampleFuel, body .global p.topLevel {}, ev.machine h⟩ (.error e) ∨
      ∃ m f, m.depth = ev.depth ∧ ctx.functions[entry]? = some f ∧
        StopsWith ctx ⟨ampleFuel, .call entry [] ⟨entry, p.location⟩, m⟩ (.error e) := by
  intro ctx
  have hstops : StopsWith ctx ⟨ampleFuel, running (some p) entry ctx, ev.machine h⟩ (.error e) := by
    rw [run_eq, carryOut, perform_eq] at he
    change Ending.result ((running (some p) entry ctx).run ctx ampleFuel (ev.machine h)) = _ at he
    cases hr : (running (some p) entry ctx).run ctx ampleFuel (ev.machine h) with
    | ok v m =>
      rw [hr] at he
      cases he
    | error stop m =>
      rw [hr] at he
      cases he
      exact ⟨m, hr⟩
  rcases hstops.bind_cases with hbody | ⟨_, m, hloaded, hentry⟩
  · left
    rcases hbody.bind_cases with hbody | ⟨_, _, -, m', hpure⟩
    · exact hbody
    · cases hpure
  · right
    have hdepth := depth_run ctx ampleFuel _ ((plain_ofProgram (some p)).mono .inl) (ev.machine h)
    rw [hloaded] at hdepth
    simp only [entryCall, known_eq] at hentry
    rcases hentry.bind_cases with ⟨m', hpure⟩ | ⟨now, m₁, hknown, hcall⟩
    · cases hpure
    · cases hknown
      split at hcall
      · next hf =>
        rw [Std.TreeMap.contains_eq_isSome_getElem?] at hf
        obtain ⟨f, hf⟩ := Option.isSome_iff_exists.mp hf
        exact ⟨m, f, hdepth, hf, hcall⟩
      · obtain ⟨m', hpure⟩ := hcall
        cases hpure

/-- With the usual built-in functions, an error that ends a run of a program is put down to a node
of the program or of a function known before, or to the call of the entry: that one has the place
of the program, and fails because the function wants arguments or because there is no room. -/
theorem error_blames (ev : Evaluator) (h : Heap) (p : Program) (entry : Bytes)
    (hb : ev.context.builtins = Builtin.defaultTable) (e : ScriptError)
    (he : (ev.run h (some p) entry).result = .error (.error e)) :
    (∃ n, ev.Knows p n ∧ n.isPresent = true ∧ n.location = e.location ∧ n.Suits e.cause) ∨
      (e.location = p.location ∧
        ∃ f, (ev.learn (some p)).context.functions[entry]? = some f ∧
          ((f.parameters.length ≠ 0 ∧ e.cause = .functionArity f.name f.parameters.length 0) ∨
            (ev.context.maxDepth ≤ ev.depth ∧
              e.cause = .depthExceeded ev.context.maxDepth f.name))) := by
  have hclosed := closed_territory (p := p) hb
  have hcalls : (ev.territory p).CallsFromNodes := fun l hl ↦ hl
  have hprint : (ev.learn (some p)).context.builtins[Builtin.print.name]? ≠ none := by
    change ev.context.builtins[_]? ≠ none
    rw [hb, Builtin.defaultTable_print]
    exact Option.some_ne_none _
  have hblames {q : Moment} (hq : q.Within (ev.learn (some p)).context (ev.territory p))
      (hs : q.StopsWith (ev.learn (some p)).context (.error e)) :
      ∃ n, ev.Knows p n ∧ n.isPresent = true ∧ n.location = e.location ∧ n.Suits e.cause :=
    hs.exists_blames hclosed hcalls hprint hq
  rcases result_run_eq_error he with hbody | ⟨m, f, hm, hf, hcall⟩
  · left
    have hnodes (s : Stmt) (hs : s ∈ p.topLevel) : ev.Knows p (.stmt s) :=
      Or.inl (Node.Below.of_mem_body (List.mem_filter.mp hs).1)
    have hwithin : Moment.Within (ev.learn (some p)).context (ev.territory p)
        ⟨ampleFuel, body .global p.topLevel {}, ev.machine h⟩ := within_body hnodes _ _ _
    exact hblames hwithin hbody
  · rcases hcall.call_cases hf with ⟨arity, rfl⟩ | ⟨full, rfl⟩ | ⟨fuel, m', hs⟩
    · exact Or.inr ⟨rfl, f, hf, Or.inl ⟨fun h0 ↦ arity h0.symm, rfl⟩⟩
    · rw [hm] at full
      exact Or.inr ⟨rfl, f, hf, Or.inr ⟨full, rfl⟩⟩
    · left
      refine hblames ?_ hs
      exact (within_block (fun s hs ↦ hclosed.body hf hs) _ _ _ m').bind fun _ m₁ ↦
        within_pure _ m₁

/-- A function that prints a variable that is not bound. -/
theorem error_blames_unbound :
    let x : Expr := .ident { line := 3, col := 9 } "x"
    let p : Program := ⟨{}, [.function { line := 2 } "main" [] [.print { line := 3 } [x]]]⟩
    let e : ScriptError := ⟨.unboundVariable "x", { line := 3, col := 9 }⟩
    let ev := new 8
    ev.context.builtins = Builtin.defaultTable ∧
      (ev.run {} (some p) "main").result = .error (.error e) ∧
      ∃ n, ev.Knows p n ∧ n.location = e.location ∧ n.ident? = some "x" := by
  intro x p e ev
  have he : (ev.run {} (some p) "main").result = .error (.error e) := by decide +kernel
  refine ⟨rfl, he, ?_⟩
  rcases error_blames ev {} p "main" rfl e he with ⟨n, hn, -, hl, -, hx⟩ | ⟨-, f, -, hf⟩
  · obtain ⟨name, hname, hcause⟩ := hx rfl
    cases hcause
    exact ⟨n, hn, hl, hname⟩
  · rcases hf with ⟨-, hf⟩ | ⟨-, hf⟩ <;> cases hf

end Evaluator
end Scriptlet
