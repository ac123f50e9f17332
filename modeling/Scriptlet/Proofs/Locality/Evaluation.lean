import Scriptlet.Proofs.Evaluation.Scripted
import Scriptlet.Proofs.Locality.Machine

/-!
# Evaluation goes alike

Evaluation never looks at an address: plans that differ in paired handles only go alike on linked
machines, whatever they evaluate and call, and whatever values host functions have of their own, as
long as these are alike, too.
-/

namespace Scriptlet

open Exec Plan

/-- Answers are alike if they are the same, or alike values. -/
inductive HostAnswer.Alike (π : Pairing) : HostAnswer → HostAnswer → Prop where
  | value {v w : Value} (hv : Pairable.Alike π v w) : Alike π (.value v) (.value w)
  | failure (detail : Bytes) : Alike π (.failure detail) (.failure detail)
  | call (callee : Bytes) : Alike π (.call callee) (.call callee)

/-- Built-in functions are alike if they are the same one of the usual ones, or host functions whose
answers are alike. -/
inductive Builtin.Alike (π : Pairing) : Builtin → Builtin → Prop where
  | usual {b : Builtin} (hb : b ∈ Builtin.defaults) : Alike π b b
  | host (name : Bytes) {answer answer' : HostAnswer} (ha : answer.Alike π answer') :
      Alike π (.host name answer) (.host name answer')

instance : Pairable Builtin where
  Alike := Builtin.Alike
  mono hle h := by
    cases h with
    | usual hb => exact .usual hb
    | host name ha =>
      cases ha with
      | value hv => exact .host name (.value (hv.mono hle))
      | failure detail => exact .host name (.failure detail)
      | call callee => exact .host name (.call callee)

/-- Contexts are alike if the same functions can be called in both, and alike built-in ones. -/
structure Context.Alike (π : Pairing) (ctx ctx' : Context) : Prop where
  functions : ctx'.functions = ctx.functions
  builtins : ∀ name : Bytes, Pairable.Alike π ctx.builtins[name]? ctx'.builtins[name]?
  maxDepth : ctx'.maxDepth = ctx.maxDepth

instance : Pairable Context where
  Alike := Context.Alike
  mono hle h := ⟨h.functions, fun name ↦ (h.builtins name).mono hle, h.maxDepth⟩

section Builtins

variable {π : Pairing} {vs ws : List Value} {v w : Value}

namespace Builtin

/-- Two responses on linked heaps are alike: the same failure, or alike values, with linked heaps
left behind and the same text written. -/
inductive RespondsAlike (π : Pairing) (h k : Heap) :
    Except Cause Response → Except Cause Response → Prop where
  | ok {π' : Pairing} {r r' : Response} (grown : Grown π h k π' r.heap r'.heap)
      (linked : r.heap.Linked π' r'.heap) (value : Pairable.Alike π' r.value r'.value)
      (written : r'.written = r.written) : RespondsAlike π h k (.ok r) (.ok r')
  | error (cause : Cause) : RespondsAlike π h k (.error cause) (.error cause)

variable {h k : Heap}

private theorem RespondsAlike.of_alike (hl : h.Linked π k) (hvw : Pairable.Alike π v w) :
    RespondsAlike π h k (.ok ⟨v, h, []⟩) (.ok ⟨w, k, []⟩) := .ok (.refl π h k) hl hvw rfl

private theorem RespondsAlike.ofLength {f : List Value → Heap → Except Cause Response}
    (b : Builtin) (n : Nat) (harity : ∀ vs h, vs.length ≠ n → f vs h = b.wrongArity n vs)
    (hf : vs.length = n → RespondsAlike π h k (f vs h) (f ws k)) (hvs : Pairable.Alike π vs ws) :
    RespondsAlike π h k (f vs h) (f ws k) := by
  by_cases hn : vs.length = n
  · exact hf hn
  · have hlength : vs.length = ws.length := List.Forall₂.length_eq hvs
    rw [harity vs h hn, harity ws k (hlength ▸ hn), wrongArity, wrongArity, hlength]
    exact .error _

private theorem RespondsAlike.ofOne {f : List Value → Heap → Except Cause Response} (b : Builtin)
    (harity : ∀ vs h, vs.length ≠ 1 → f vs h = b.wrongArity 1 vs)
    (hf : ∀ {v w}, Pairable.Alike π v w → RespondsAlike π h k (f [v] h) (f [w] k))
    (hvs : Pairable.Alike π vs ws) : RespondsAlike π h k (f vs h) (f ws k) := by
  refine .ofLength b 1 harity (fun hn ↦ ?_) hvs
  cases hvs with
  | nil => cases hn
  | cons hv hvs =>
    cases hvs with
    | nil => exact hf hv
    | cons => cases hn

private theorem RespondsAlike.ofTwo {f : List Value → Heap → Except Cause Response} (b : Builtin)
    (harity : ∀ vs h, vs.length ≠ 2 → f vs h = b.wrongArity 2 vs)
    (hf : ∀ {v v' w w'}, Pairable.Alike π v w → Pairable.Alike π v' w' →
      RespondsAlike π h k (f [v, v'] h) (f [w, w'] k))
    (hvs : Pairable.Alike π vs ws) : RespondsAlike π h k (f vs h) (f ws k) := by
  refine .ofLength b 2 harity (fun hn ↦ ?_) hvs
  cases hvs with
  | nil => cases hn
  | cons hv hvs =>
    cases hvs with
    | nil => cases hn
    | cons hv' hvs =>
      cases hvs with
      | nil => exact hf hv hv'
      | cons => cases hn

private theorem respondPrint_alike (hl : h.Linked π k) (hvs : Pairable.Alike π vs ws) :
    RespondsAlike π h k (respondPrint vs h) (respondPrint ws k) := by
  refine .ok (.refl π h k) hl .none ?_
  rw [map_eq_of_related hvs fun _ _ hv ↦ (hl.displayText_eq hv).symm]

private theorem respondLen_alike (hl : h.Linked π k) (hvs : Pairable.Alike π vs ws) :
    RespondsAlike π h k (respondLen vs h) (respondLen ws k) := by
  refine .ofOne len (fun vs h hn ↦ ?_) (fun hv ↦ ?_) hvs
  · unfold respondLen
    split
    · exact absurd rfl hn
    · exact absurd rfl hn
    · exact absurd rfl hn
    · exact absurd rfl hn
    · rfl
  · cases hv with
    | str s => exact .of_alike hl (.int _)
    | array paired =>
      simp only [respondLen, hl.size_array paired]
      exact .of_alike hl (.int _)
    | dict paired =>
      simp only [respondLen, (hl.dict paired).size]
      exact .of_alike hl (.int _)
    | _ => exact .error _

private theorem respondAbs_alike (hl : h.Linked π k) (hvs : Pairable.Alike π vs ws) :
    RespondsAlike π h k (respondAbs vs h) (respondAbs ws k) := by
  refine .ofOne abs (fun vs h hn ↦ ?_) (fun hv ↦ ?_) hvs
  · unfold respondAbs
    split
    · exact absurd rfl hn
    · exact absurd rfl hn
    · rfl
  · cases hv with
    | int n =>
      simp only [respondAbs, absInt]
      split
      · exact .error _
      · exact .of_alike hl (.int _)
    | _ => exact .error _

private theorem respondContains_alike (hl : h.Linked π k) (hvs : Pairable.Alike π vs ws) :
    RespondsAlike π h k (respondContains vs h) (respondContains ws k) := by
  refine .ofTwo contains (fun vs h hn ↦ ?_) (fun hv hkey ↦ ?_) hvs
  · unfold respondContains
    split
    · exact absurd rfl hn
    · exact absurd rfl hn
    · rfl
  · cases hv with
    | @dict r s paired =>
      simp only [respondContains, Value.Alike.dictKey_eq hkey]
      cases dictKey _ with
      | error cause => exact .error cause
      | ok key =>
        have hcontains := (hl.dict paired).contains_eq key
        simp only [Bind.bind, Except.bind, hcontains]
        exact .of_alike hl (.bool _)
    | _ => exact .error _

private theorem respondRemove_alike (hl : h.Linked π k) (hvs : Pairable.Alike π vs ws) :
    RespondsAlike π h k (respondRemove vs h) (respondRemove ws k) := by
  refine .ofTwo remove (fun vs h hn ↦ ?_) (fun hv hkey ↦ ?_) hvs
  · unfold respondRemove
    split
    · exact absurd rfl hn
    · exact absurd rfl hn
    · rfl
  · cases hv with
    | @dict r s paired =>
      simp only [respondRemove, Value.Alike.dictKey_eq hkey]
      cases dictKey _ with
      | error cause => exact .error cause
      | ok key =>
        have hremove := (hl.dict paired).remove? key
        have hsize := (hl.dict paired).size
        simp only [Bind.bind, Except.bind]
        generalize (h.dict r).remove? key = x at hremove
        generalize (k.dict s).remove? key = y at hremove
        cases hremove with
        | none =>
          simp only [hsize]
          exact .error _
        | some hremoved =>
          obtain ⟨hgrown, hlinked⟩ :=
            hl.modifyDict (f := fun _ ↦ _) (g := fun _ ↦ _) paired hremoved.2
          exact .ok hgrown hlinked hremoved.1 rfl
    | _ => exact .error _

private theorem respondPush_alike (hl : h.Linked π k) (hvs : Pairable.Alike π vs ws) :
    RespondsAlike π h k (respondPush vs h) (respondPush ws k) := by
  refine .ofTwo push (fun vs h hn ↦ ?_) (fun {v v' w w'} hv hnew ↦ ?_) hvs
  · unfold respondPush
    split
    · exact absurd rfl hn
    · exact absurd rfl hn
    · rfl
  · cases hv with
    | @array r s paired =>
      have hpushed : List.Forall₂ (Value.Alike π) ((h.array r).push v').toList
          ((k.array s).push w').toList := by
        rw [Array.toList_push, Array.toList_push]
        exact List.rel_append (hl.array paired) (.cons hnew .nil)
      obtain ⟨hgrown, hlinked⟩ :=
        hl.modifyArray (f := (·.push v')) (g := (·.push w')) paired hpushed
      exact .ok hgrown hlinked .none rfl
    | _ => exact .error _

private theorem respondKeys_alike (hl : h.Linked π k) (hvs : Pairable.Alike π vs ws) :
    RespondsAlike π h k (respondKeys vs h) (respondKeys ws k) := by
  refine .ofOne keys (fun vs h hn ↦ ?_) (fun hv ↦ ?_) hvs
  · unfold respondKeys
    split
    · exact absurd rfl hn
    · exact absurd rfl hn
    · rfl
  · cases hv with
    | dict paired =>
      simp only [respondKeys, (hl.dict paired).keys_eq]
      have hkeys (ks : List Key) : Pairable.Alike π (ks.map Key.toValue) (ks.map Key.toValue) :=
        List.forall₂_map_left_iff.mpr (List.forall₂_map_right_iff.mpr
          (List.forall₂_same.mpr fun key _ ↦ Value.alike_self (by cases key <;> rfl)))
      obtain ⟨hgrown, hlinked⟩ := hl.newArray (hkeys _)
      exact .ok hgrown hlinked (.array (Or.inr ⟨rfl, rfl⟩)) rfl
    | _ => exact .error _

private theorem respondType_alike (hl : h.Linked π k) (hvs : Pairable.Alike π vs ws) :
    RespondsAlike π h k (respondType vs h) (respondType ws k) := by
  refine .ofOne type (fun vs h hn ↦ ?_) (fun hv ↦ ?_) hvs
  · unfold respondType
    split
    · exact absurd rfl hn
    · rfl
  · simp only [respondType, Value.Alike.type_eq hv]
    exact .of_alike hl (.str _)

/-- A function of the language responds alike to alike arguments. -/
theorem Native.respondsAlike {b : Builtin} {respond respond' : Heap → Except Cause Response}
    (hb : b.Native vs respond) (hb' : b.Native ws respond') (hl : h.Linked π k)
    (hvs : Pairable.Alike π vs ws) : RespondsAlike π h k (respond h) (respond' k) := by
  cases hb <;> cases hb'
  · exact respondPrint_alike hl hvs
  · exact respondLen_alike hl hvs
  · exact respondAbs_alike hl hvs
  · exact respondContains_alike hl hvs
  · exact respondRemove_alike hl hvs
  · exact respondPush_alike hl hvs
  · exact respondKeys_alike hl hvs
  · exact respondType_alike hl hvs

private theorem runsAlike_reply (site : Token) {respond respond' : Heap → Except Cause Response}
    (hr : ∀ {π' h k}, π ≤ π' → Heap.Linked π' h k →
      RespondsAlike π' h k (respond h) (respond' k)) :
    RunsAlike π (reply site respond) (reply site respond') := by
  constructor
  intro π' m m' hle hm
  have halike := hr hle hm.heap
  rw [reply, reply]
  generalize respond m.heap = x at halike
  generalize respond' m'.heap = y at halike
  cases halike with
  | ok grown linked value written =>
    refine .ok grown ⟨linked, hm.scopes.mono grown.le, ?_, hm.depth⟩ value
    rw [hm.output, written]
  | error cause => exact .of_stop hm _

private theorem runsAlike_logCall (name : Bytes) (site : Token) (hvs : Pairable.Alike π vs ws) :
    RunsAlike π (logCall name vs site) (logCall name ws site) := by
  constructor
  intro π' m m' hle hm
  have htext : HostAnswer.callText name ws site m'.heap m'.depth =
      HostAnswer.callText name vs site m.heap m.depth := by
    simp only [HostAnswer.callText, hm.depth,
      map_eq_of_related (hvs.mono hle) fun _ _ hv ↦ (hm.heap.debugText_eq hv).symm]
  rw [logCall, logCall, htext]
  exact (runsAlike_write _).ends hle hm

end Builtin
end Builtins

/-- Tasks are alike if they are the same but for flags and walks that are alike. -/
inductive Task.Alike (π : Pairing) : Task Flags → Task Flags → Prop where
  | stmt (scope : ScopeId) (s : Stmt) {flags flags' : Flags}
      (hf : Pairable.Alike π flags flags') : Alike π (.stmt scope s flags) (.stmt scope s flags')
  | turns (scope : ScopeId) (l : Location) (c : Expr) (body : List Stmt) {flags flags' : Flags}
      (hf : Pairable.Alike π flags flags') :
      Alike π (.turns scope l c body flags) (.turns scope l c body flags')
  | visits (scope : ScopeId) (vars : LoopVars) (body : List Stmt) {walk walk' : Walk}
      {flags flags' : Flags} (hw : Pairable.Alike π walk walk')
      (hf : Pairable.Alike π flags flags') :
      Alike π (.visits scope vars body walk flags) (.visits scope vars body walk' flags')

/-- Plans are alike if they do the same in the same order: their pieces run alike, and they evaluate
and call the same things with alike values. -/
inductive Plan.Alike : Pairing → {α : Type} → [Pairable α] → Plan α → Plan α → Prop where
  | piece {π : Pairing} {α : Type} [Pairable α] {x y : Exec α} (h : RunsAlike π x y) :
      Alike π (.piece x) (.piece y)
  | eval {π : Pairing} (scope : ScopeId) (e : Expr) : Alike π (eval scope e) (eval scope e)
  | task {π : Pairing} {t t' : Task Flags} (ht : t.Alike π t') : Alike π (.task t) (.task t')
  | call {π : Pairing} (name : Bytes) {vs ws : List Value} (site : Token)
      (hvs : Pairable.Alike π vs ws) : Alike π (.call name vs site) (.call name ws site)
  | bind {π : Pairing} {α β : Type} [Pairable α] [Pairable β] {p p' : Plan α}
      {rest rest' : α → Plan β} (hp : Alike π p p')
      (hrest : ∀ {π' a b}, π ≤ π' → Pairable.Alike π' a b → Alike π' (rest a) (rest' b)) :
      Alike π (p >>= rest) (p' >>= rest')
  | inScope {π : Pairing} {α : Type} [Pairable α] (parent : ScopeId) {body body' : ScopeId → Plan α}
      (h : ∀ inner, Alike π (body inner) (body' inner)) :
      Alike π (.inScope parent body) (.inScope parent body')
  /-- The heap that comes of a write differs with the one that was written to, so it is like another
  one only as long as it is stored at once. -/
  | store {π : Pairing} {α : Type} [Pairable α] (l : Location) {c c' key key' v v' : Value}
      {a b : α} (hc : Pairable.Alike π c c') (hkey : Pairable.Alike π key key')
      (hv : Pairable.Alike π v v') (hab : Pairable.Alike π a b) :
      Alike π
        (do
          let heap ← Plan.piece (operate l (·.write c key v))
          Plan.piece (modifyHeap fun _ ↦ heap)
          pure a)
        (do
          let heap ← Plan.piece (operate l (·.write c' key' v'))
          Plan.piece (modifyHeap fun _ ↦ heap)
          pure b)

section Plans

variable {ctx ctx' : Context} {fuel : Nat} {π : Pairing} {α β : Type} [Pairable α] [Pairable β]

private theorem LoopVars.bindings_alike (vars : LoopVars) (overDict : Bool) {key key' v v' : Value}
    (hkey : Alike π key key') (hv : Alike π v v') :
    BindingsAlike π (vars.bindings overDict key v) (vars.bindings overDict key' v') := by
  cases vars with
  | single name =>
    cases overDict with
    | true => exact .cons ⟨rfl, hkey⟩ .nil
    | false => exact .cons ⟨rfl, hv⟩ .nil
  | pair keyName valueName => exact .cons ⟨rfl, hkey⟩ (.cons ⟨rfl, hv⟩ .nil)

private theorem bindingsAlike_zip (names : List Bytes) {vs ws : List Value} (h : Alike π vs ws) :
    BindingsAlike π (names.zip vs) (names.zip ws) := by
  induction h generalizing names with
  | nil =>
    rw [List.zip_nil_right]
    exact .nil
  | cons hv _ ih =>
    cases names with
    | nil => exact .nil
    | cons name names => exact .cons ⟨rfl, hv⟩ (ih names)

namespace Flags.Alike

variable {f g : Flags} {v w : Value}

private theorem stops_eq (h : f.Alike π g) : g.stops = f.stops := by
  simp only [stops, didBreak, didContinue, h.didReturn, h.loop]

private theorem ends_eq (h : f.Alike π g) :
    (g.didReturn || g.didBreak) = (f.didReturn || f.didBreak) := by
  simp only [didBreak, h.didReturn, h.loop]

private theorem enterLoop (h : f.Alike π g) : f.enterLoop.Alike π g.enterLoop :=
  ⟨h.returnValue, h.didReturn, rfl⟩

private theorem nextTurn (h : f.Alike π g) : f.nextTurn.Alike π g.nextTurn :=
  ⟨h.returnValue, h.didReturn, congrArg (Option.map _) h.loop⟩

private theorem leaveLoop (h : f.Alike π g) {f' g' : Flags} (h' : f'.Alike π g') :
    (f.leaveLoop f').Alike π (g.leaveLoop g') := ⟨h.returnValue, h.didReturn, h'.loop⟩

private theorem raiseBreak (h : f.Alike π g) : f.raiseBreak.Alike π g.raiseBreak :=
  ⟨h.returnValue, h.didReturn, congrArg (Option.map _) h.loop⟩

private theorem raiseContinue (h : f.Alike π g) : f.raiseContinue.Alike π g.raiseContinue :=
  ⟨h.returnValue, h.didReturn, congrArg (Option.map _) h.loop⟩

private theorem raiseReturn (h : f.Alike π g) (hv : Pairable.Alike π v w) :
    (f.raiseReturn v).Alike π (g.raiseReturn w) := ⟨hv, rfl, h.loop⟩

end Flags.Alike

namespace Plan.Alike

variable {p p' q q' : Plan α} {rest rest' : α → Plan β}

/-- Alike values are alike plans. -/
theorem pure {a b : α} (hab : Pairable.Alike π a b) :
    Plan.Alike π (Pure.pure a) (Pure.pure b) := piece (.pure hab)

private theorem raise (cause : Cause) (l : Location) :
    Plan.Alike π (.piece (Exec.raise cause l : Exec α)) (.piece (Exec.raise cause l)) :=
  piece (.raise cause l)

private theorem ite {c : Prop} [Decidable c] (hp : p.Alike π p') (hq : q.Alike π q') :
    Plan.Alike π (if c then p else q) (if c then p' else q') := by
  split
  · exact hp
  · exact hq

private theorem ite_bind {c : Prop} [Decidable c] (hp : p.Alike π p') (hq : q.Alike π q')
    (hrest : ∀ {π' a b}, π ≤ π' → Pairable.Alike π' a b → (rest a).Alike π' (rest' b)) :
    Plan.Alike π (if c then p >>= rest else q >>= rest)
      (if c then p' >>= rest' else q' >>= rest') := .ite (hp.bind hrest) (hq.bind hrest)

private theorem condition (l : Location) {v w : Value} (hv : Pairable.Alike π v w)
    {rest rest' : Bool → Plan β} (hrest : ∀ {π'} b, π ≤ π' → (rest b).Alike π' (rest' b)) :
    Plan.Alike π (.piece (Exec.condition l v) >>= rest) (.piece (Exec.condition l w) >>= rest') :=
  (piece (runsAlike_condition l hv)).bind fun hle hb ↦ by
    cases hb
    exact hrest _ hle

private theorem each {γ : Type} {p : γ → Plan β} (h : ∀ π c, (p c).Alike π (p c)) (cs : List γ) :
    (Plan.each p cs).Alike π (Plan.each p cs) := by
  induction cs generalizing π with
  | nil => exact pure .nil
  | cons c cs ih =>
    exact (h π c).bind fun _ hb ↦ ih.bind fun hle hbs ↦ pure (.cons (hb.mono hle) hbs)

private theorem body (scope : ScopeId) (ss : List Stmt) {flags flags' : Flags}
    (hf : Pairable.Alike π flags flags') :
    (Plan.body scope ss flags).Alike π (Plan.body scope ss flags') := by
  induction ss generalizing π flags flags' with
  | nil => exact pure hf
  | cons s ss ih =>
    refine (task (.stmt scope s hf)).bind fun _ hf' ↦ ?_
    rw [Flags.Alike.stops_eq hf']
    exact ite (pure hf') (ih hf')

private theorem block (parent : ScopeId) {bs cs : List (Bytes × Value)} (ss : List Stmt)
    {flags flags' : Flags} (hbs : BindingsAlike π bs cs) (hf : Pairable.Alike π flags flags') :
    (Plan.block parent bs ss flags).Alike π (Plan.block parent cs ss flags') :=
  inScope parent fun inner ↦
    (piece (runsAlike_bindAll inner hbs)).bind fun hle _ ↦ body inner ss (hf.mono hle)

private theorem entry (scope : ScopeId) (l : Location) (e : Expr × Expr) :
    (Plan.entry scope l e).Alike π (Plan.entry scope l e) :=
  (eval scope e.1).bind fun _ hk ↦ (piece (runsAlike_dictKey _ hk)).bind fun _ hkey ↦
    (eval scope e.2).bind fun hle hv ↦ pure ⟨hkey.mono hle, hv⟩

private theorem known (hctx : Pairable.Alike π ctx ctx') :
    Plan.Alike π (.piece (Exec.known ctx)) (.piece (Exec.known ctx')) := by
  rw [known_eq, known_eq]
  exact pure hctx

end Plan.Alike

/-- Alike built-in functions do alike with alike arguments. -/
theorem Builtin.plan_alike {b b' : Builtin} (hb : Pairable.Alike π b b') {vs ws : List Value}
    (site : Token) (hvs : Pairable.Alike π vs ws) :
    (b.plan ctx vs site).Alike π (b'.plan ctx' ws site) := by
  cases hb with
  | host name ha =>
    rw [plan_host, plan_host]
    refine (Plan.Alike.piece (runsAlike_logCall name site hvs)).bind fun hle _ ↦ ?_
    cases ha with
    | value hv => exact .pure (hv.mono hle)
    | failure detail => exact .piece (.raise _ _)
    | call callee => exact .call callee site (hvs.mono hle)
  | @usual b hb =>
    rcases b.native_or_host vs with ⟨respond, hr⟩ | ⟨name, answer, rfl⟩
    · rcases b.native_or_host ws with ⟨respond', hr'⟩ | ⟨name, answer, rfl⟩
      · rw [hr.plan_eq, hr'.plan_eq]
        exact .piece (runsAlike_reply site fun hle hl ↦ hr.respondsAlike hr' hl (hvs.mono hle))
      · cases hr
    · exact absurd hb (by simp [defaults])

/-- A function of the script does alike with alike arguments. -/
theorem Function.plan_alike (f : Function) {vs ws : List Value} (hvs : Alike π vs ws) :
    (f.plan vs).Alike π (f.plan ws) :=
  (Plan.Alike.block .global f.body (bindingsAlike_zip f.parameters hvs)
    (Flags.Alike.mk .none rfl rfl)).bind fun _ hg ↦ .pure hg.returnValue

/-- Calls are resolved alike if they are resolved to plans that are, under the same name, or fail
with the same error. -/
inductive Callee.Alike (π : Pairing) : Except Cause Callee → Except Cause Callee → Prop where
  | ok (label : Bytes) {p q : Plan Value} (h : p.Alike π q) :
      Alike π (.ok ⟨label, p⟩) (.ok ⟨label, q⟩)
  | error (cause : Cause) : Alike π (.error cause) (.error cause)

/-- Alike contexts resolve calls with alike arguments alike. -/
theorem Context.resolve_alike (hctx : Pairable.Alike π ctx ctx') (name : Bytes)
    {vs ws : List Value} (site : Token) (hvs : Pairable.Alike π vs ws) :
    Callee.Alike π (ctx.resolve name vs site) (ctx'.resolve name ws site) := by
  have hlength : vs.length = ws.length := List.Forall₂.length_eq hvs
  have hb := Context.Alike.builtins hctx name
  simp only [resolve_eq, Context.Alike.functions hctx, ← hlength]
  cases ctx.functions[name]? with
  | some f =>
    by_cases harity : vs.length = f.parameters.length
    · simp only [if_pos harity]
      exact .ok _ (f.plan_alike hvs)
    · simp only [if_neg harity]
      exact .error _
  | none =>
    generalize ctx.builtins[name]? = b at hb
    generalize ctx'.builtins[name]? = b' at hb
    cases hb with
    | some hb => exact .ok _ (Builtin.plan_alike hb site hvs)
    | none => exact .error _

/-- The plan of an expression is like itself. -/
theorem Expr.plan_alike (scope : ScopeId) (e : Expr) : (e.plan scope).Alike π (e.plan scope) := by
  have hoperand {π : Pairing} (l : Location) (right : Expr) :
      Plan.Alike π (do return Value.bool (← piece (condition l (← eval scope right))))
        (do return Value.bool (← piece (condition l (← eval scope right)))) :=
    (Plan.Alike.eval scope right).bind fun _ hv ↦
      .condition l hv fun b _ ↦ .pure (Value.Alike.bool b)
  cases e with
  | absent => exact .pure .none
  | int l n => exact .pure (.int n)
  | str l s => exact .pure (.str s)
  | bool l b => exact .pure (.bool b)
  | none l => exact .pure .none
  | ident l name => exact .piece (runsAlike_lookup scope name l)
  | unary l op operand =>
    exact (Plan.Alike.eval scope operand).bind fun _ hv ↦ .piece (runsAlike_lift l (hv.unary op))
  | binary l op left right =>
    refine (Plan.Alike.eval scope left).bind fun _ ha ↦ .ite ?_ (.ite ?_ ?_)
    · exact .condition l ha fun _ _ ↦ .ite (hoperand l right) (.pure (.bool false))
    · exact .condition l ha fun _ _ ↦ .ite (.pure (.bool true)) (hoperand l right)
    · exact (Plan.Alike.eval scope right).bind fun hle hb ↦ .piece <| runsAlike_operate l
        fun hle' hl ↦ hl.binary op (ha.mono (hle.trans hle')) (hb.mono hle')
  | index l object key =>
    refine (Plan.Alike.eval scope object).bind fun _ hc ↦ ?_
    exact (Plan.Alike.eval scope key).bind fun hle hk ↦ .piece <| runsAlike_operate l
      fun hle' hl ↦ hl.read (hc.mono (hle.trans hle')) (hk.mono hle')
  | array l elements =>
    exact (Plan.Alike.each (fun _ ↦ .eval scope) elements).bind fun _ hvs ↦
      .piece (runsAlike_newArray hvs)
  | dict l entries =>
    exact (Plan.Alike.each (fun _ ↦ .entry scope l) entries).bind fun _ hpairs ↦
      .piece (runsAlike_newDict ((Dictionary.alike_empty _).setAll hpairs))
  | call l receiver callee arguments =>
    exact (Plan.Alike.each (fun _ ↦ .eval scope) _).bind fun _ hvs ↦ .call callee _ hvs
  | bare l => exact .raise _ l

private theorem Stmt.assignPlan_alike (scope : ScopeId) (l : Location) (target : Expr)
    (op : AssignOp) (value : Expr) {flags flags' : Flags} (hf : Alike π flags flags') :
    (assignPlan scope l target op value flags).Alike π
      (assignPlan scope l target op value flags') := by
  cases target with
  | ident lt name =>
    refine .ite_bind (.pure Value.Alike.none) (.piece (runsAlike_lookup scope name lt)) ?_
    intro π₁ c c' hle hc
    refine (Plan.Alike.eval scope value).bind fun hle' hnew ↦ ?_
    refine (Plan.Alike.piece (runsAlike_operate l fun hle'' hl ↦ ?_)).bind fun hle'' hv ↦ ?_
    · exact hl.combine op (hc.mono (hle'.trans hle'')) (hnew.mono hle'')
    · exact (Plan.Alike.piece (runsAlike_assign scope name hv)).bind fun hle₃ _ ↦
        .pure (hf.mono (hle.trans (hle'.trans (hle''.trans hle₃))))
  | index lt object key =>
    refine (Plan.Alike.eval scope object).bind fun {π₁ a a'} hle₁ ha ↦ ?_
    refine (Plan.Alike.eval scope key).bind fun {π₂ b b'} hle₂ hb ↦ ?_
    refine (Plan.Alike.eval scope value).bind fun {π₃ v v'} hle₃ hv ↦ ?_
    rw [Value.Alike.isContainer_eq ha, Value.Alike.type_eq ha]
    refine .ite ?_ (.raise _ lt)
    replace ha := ha.mono (hle₂.trans hle₃)
    replace hb := hb.mono hle₃
    replace hf := hf.mono (hle₁.trans (hle₂.trans hle₃))
    have hread : RunsAlike π₃ (operate lt (·.read a b)) (operate lt (·.read a' b')) :=
      runsAlike_operate lt fun hle hl ↦ hl.read (ha.mono hle) (hb.mono hle)
    refine .ite_bind (.pure Value.Alike.none) (.piece hread) fun {π₄ c c'} hle₄ hc ↦ ?_
    refine (Plan.Alike.piece (runsAlike_operate l fun hle hl ↦ ?_)).bind fun {π₅ w w'} hle₅ hw ↦ ?_
    · exact hl.combine op (hc.mono hle) (hv.mono (hle₄.trans hle))
    · have hle := hle₄.trans hle₅
      exact .store lt (ha.mono hle) (hb.mono hle) hw (hf.mono hle)
  | _ => exact .raise _ l

/-- Plans of a statement are alike if they start with alike flags, in contexts that are alike. -/
theorem Stmt.plan_alike (hctx : Alike π ctx ctx') (scope : ScopeId) (s : Stmt)
    {flags flags' : Flags} (hf : Alike π flags flags') :
    (s.plan ctx scope flags).Alike π (s.plan ctx' scope flags') := by
  cases s with
  | absent => exact .pure hf
  | declare l name value =>
    exact (Plan.Alike.eval scope value).bind fun hle hv ↦
      (Plan.Alike.piece (runsAlike_declare scope name hv)).bind fun hle' _ ↦
        .pure (hf.mono (hle.trans hle'))
  | assign l target text value =>
    simp only [plan]
    cases AssignOp.ofText? text with
    | none => exact .raise _ l
    | some op => exact assignPlan_alike scope l target op value hf
  | print l arguments =>
    refine (Plan.Alike.each (fun _ ↦ .eval scope) arguments).bind fun hle hvs ↦ ?_
    refine (Plan.Alike.known (hctx.mono hle)).bind fun {_ now now'} hle' hnow ↦ ?_
    have hb := Context.Alike.builtins hnow Builtin.print.name
    generalize now.builtins[Builtin.print.name]? = b at hb
    generalize now'.builtins[Builtin.print.name]? = b' at hb
    cases hb with
    | none => exact .raise _ l
    | some hb =>
      exact (Builtin.plan_alike hb _ (hvs.mono hle')).bind fun hle'' _ ↦
        .pure (hf.mono (hle.trans (hle'.trans hle'')))
  | evaluate l e => exact (Plan.Alike.eval scope e).bind fun hle _ ↦ .pure (hf.mono hle)
  | ifThen l c statements =>
    refine (Plan.Alike.eval scope c).bind fun hle hc ↦ .condition l hc fun _ hle' ↦ ?_
    replace hf := hf.mono (hle.trans hle')
    exact .ite (.block scope statements .nil hf) (.pure hf)
  | ifElse l c statements otherwise =>
    refine (Plan.Alike.eval scope c).bind fun hle hc ↦ .condition l hc fun _ hle' ↦ ?_
    replace hf := hf.mono (hle.trans hle')
    exact .ite (.block scope statements .nil hf) (.block scope otherwise .nil hf)
  | whileLoop l c statements =>
    have hturns := Task.Alike.turns scope l c statements (Flags.Alike.enterLoop hf)
    exact (Plan.Alike.task hturns).bind fun hle hg ↦ .pure (Flags.Alike.leaveLoop hg (hf.mono hle))
  | forEach l vars iterable statements =>
    refine (Plan.Alike.eval scope iterable).bind fun {π₁ v v'} hle hv ↦ ?_
    replace hf := hf.mono hle
    have hwalk : Plan.Alike π₁
        (do
          let walk ← piece (consult fun h ↦ Walk.start h v l)
          let inner ← Plan.task (.visits scope vars statements walk flags.enterLoop)
          pure (inner.leaveLoop flags))
        (do
          let walk ← piece (consult fun h ↦ Walk.start h v' l)
          let inner ← Plan.task (.visits scope vars statements walk flags'.enterLoop)
          pure (inner.leaveLoop flags')) := by
      have hstart : RunsAlike π₁ (consult (Walk.start · v l)) (consult (Walk.start · v' l)) :=
        runsAlike_consult fun hle hl ↦ hl.start (hv.mono hle) l
      refine (Plan.Alike.piece hstart).bind fun hle' hw ↦ ?_
      have hf' := Flags.Alike.enterLoop (hf.mono hle')
      exact (Plan.Alike.task (.visits scope vars statements hw hf')).bind fun hle'' hg ↦
        .pure (Flags.Alike.leaveLoop hg (hf.mono (hle'.trans hle'')))
    rw [Value.Alike.type_eq hv]
    cases vars with
    | single name => exact hwalk
    | pair keyName valueName =>
      cases v.type with
      | dictionary => exact hwalk
      | _ => exact .raise _ l
  | breakLoop l => exact .pure (Flags.Alike.raiseBreak hf)
  | continueLoop l => exact .pure (Flags.Alike.raiseContinue hf)
  | returnValue l value =>
    exact (Plan.Alike.eval scope value).bind fun hle hv ↦
      .pure (Flags.Alike.raiseReturn (hf.mono hle) hv)
  | function l name parameters body => exact .raise _ l
  | bare l => exact .raise _ l

/-- Plans of tasks that are alike are. -/
theorem Task.Alike.plan (hctx : Pairable.Alike π ctx ctx') {t t' : Task Flags}
    (ht : t.Alike π t') : (t.plan ctx).Alike π (t'.plan ctx') := by
  cases ht with
  | stmt scope s hf => exact s.plan_alike hctx scope hf
  | turns scope l c statements hf =>
    refine (Plan.Alike.eval scope c).bind fun hle hc ↦ .condition l hc fun _ hle' ↦ ?_
    replace hf := hf.mono (hle.trans hle')
    refine .ite ((Plan.Alike.block scope statements .nil hf).bind fun _ hg ↦ ?_) (.pure hf)
    rw [Flags.Alike.ends_eq hg]
    exact .ite (.pure hg) (.task (.turns scope l c statements (Flags.Alike.nextTurn hg)))
  | @visits scope vars statements walk walk' _ _ hw hf =>
    have hnext : RunsAlike π (consult walk.visit?) (consult walk'.visit?) :=
      runsAlike_consult fun hle hl ↦ hl.visit? (hw.mono hle)
    refine (Plan.Alike.piece hnext).bind fun hle hv ↦ ?_
    replace hf := hf.mono hle
    cases hv with
    | none => exact .pure hf
    | @some p q hpq =>
      obtain ⟨key, value, after⟩ := p
      obtain ⟨key', value', after'⟩ := q
      obtain ⟨hkey, hvalue, hafter⟩ := hpq
      have hbindings := vars.bindings_alike after.overDict hkey hvalue
      simp only [Walk.Alike.overDict_eq hafter]
      refine (Plan.Alike.block scope statements hbindings hf).bind fun hle' hg ↦ ?_
      rw [Flags.Alike.ends_eq hg]
      exact .ite (.pure hg)
        (.task (.visits scope vars statements (hafter.mono hle') (Flags.Alike.nextTurn hg)))

/-- The statements of a program are like themselves. -/
theorem Plan.ofProgram_alike (p : Option Program) : (ofProgram p).Alike π (ofProgram p) := by
  cases p with
  | none => exact .pure rfl
  | some p =>
    exact (Plan.Alike.body .global p.topLevel (Flags.Alike.mk .none rfl rfl)).bind
      fun _ _ ↦ .pure rfl

/-- So are they followed by the call of an entry. -/
theorem Plan.running_alike (hctx : Pairable.Alike π ctx ctx') (p : Option Program) (entry : Bytes) :
    (running p entry ctx).Alike π (running p entry ctx') := by
  refine (ofProgram_alike p).bind fun hle _ ↦ ?_
  refine (Plan.Alike.known (hctx.mono hle)).bind fun _ hnow ↦ ?_
  rw [Context.Alike.functions hnow]
  exact .ite (.call entry _ .nil) (.pure Value.Alike.none)

/-- Everything that is evaluated and called with some fuel goes alike. -/
structure GoAlike (ctx ctx' : Context) (fuel : Nat) : Prop where
  eval : ∀ {π : Pairing} scope e, Alike π ctx ctx' →
    RunsAlike π (evalExpr ctx fuel scope e) (evalExpr ctx' fuel scope e)
  task : ∀ {π : Pairing} {t t' : Task Flags}, Alike π ctx ctx' → t.Alike π t' →
    RunsAlike π (t.run ctx fuel) (t'.run ctx' fuel)
  call : ∀ {π : Pairing} name {vs ws : List Value} site, Alike π ctx ctx' → Alike π vs ws →
    RunsAlike π (callFunction ctx fuel name vs site) (callFunction ctx' fuel name ws site)

/-- So do plans that are alike. -/
theorem GoAlike.run (go : GoAlike ctx ctx' fuel) {p p' : Plan α} (h : p.Alike π p')
    (hctx : Alike π ctx ctx') : RunsAlike π (p.run ctx fuel) (p'.run ctx' fuel) := by
  induction h with
  | piece h => exact h
  | eval scope e => exact go.eval scope e hctx
  | task ht => exact go.task hctx ht
  | call name site hvs => exact go.call name site hctx hvs
  | bind _ _ ihp ihrest => exact (ihp hctx).bind fun hle hab ↦ ihrest hle hab (hctx.mono hle)
  | inScope parent _ ih => exact RunsAlike.withScope parent fun inner ↦ ih inner hctx
  | store l hc hkey hv hab => exact runsAlike_write_bind l hc hkey hv (.pure hab)

/-- Whatever the fuel, evaluation goes alike. -/
theorem goAlike (ctx ctx' : Context) (fuel : Nat) : GoAlike ctx ctx' fuel := by
  induction fuel with
  | zero =>
    have hspent {π : Pairing} {α : Type} [Pairable α] :
        RunsAlike π (throw .outOfFuel : Exec α) (throw .outOfFuel) := ⟨fun _ hm ↦ .of_stop hm _⟩
    constructor
    · intro π scope e _
      rw [evalExpr, evalExpr]
      exact hspent
    · intro π t t' _ _
      rw [t.run_zero, t'.run_zero]
      exact hspent
    · intro π name vs ws site _ _
      rw [callFunction, callFunction]
      exact hspent
  | succ fuel ih =>
    constructor
    · intro π scope e hctx
      rw [← e.run_plan, ← e.run_plan]
      exact ih.run (e.plan_alike scope) hctx
    · intro π t t' hctx ht
      rw [t.run_succ, t'.run_succ]
      exact ih.run (ht.plan hctx) hctx
    · intro π name vs ws site hctx hvs
      have hresolve := ctx.resolve_alike hctx name site hvs
      rw [callFunction_eq_resolve, callFunction_eq_resolve]
      generalize ctx.resolve name vs site = callee at hresolve
      generalize ctx'.resolve name ws site = callee' at hresolve
      cases hresolve with
      | ok label h => exact .withFrame (Context.Alike.maxDepth hctx) label _ (ih.run h hctx)
      | error cause => exact .raise cause _

/-- Plans that are alike run alike in contexts that are alike. -/
theorem Plan.Alike.runsAlike {p p' : Plan α} (h : p.Alike π p') (fuel : Nat)
    (hctx : Pairable.Alike π ctx ctx') : RunsAlike π (p.run ctx fuel) (p'.run ctx' fuel) :=
  (goAlike ctx ctx' fuel).run h hctx

end Plans
end Scriptlet
