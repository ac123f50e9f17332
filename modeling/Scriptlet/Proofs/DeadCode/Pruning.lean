import Mathlib.Data.List.Forall2
import Scriptlet.Evaluation.Evaluator
import Scriptlet.Proofs.Evaluation.Agreement

/-!
# Pruning dead code

Nothing that stands behind a return in its list of statements is ever run, nor, inside a loop,
what stands behind a break or a continue; and where there is no loop around, a break or a continue
does nothing. A program may be rid of all this, anywhere in its functions and in its other
statements. Functions that a program declares at its top level stay, wherever they stand.
-/

namespace Scriptlet

namespace Stmt

/-- Whether a statement that is run to its end leaves its list there, inside or outside of
loops. -/
def leaves (inLoop : Bool) : Stmt → Bool
  | returnValue .. => true
  | breakLoop _ | continueLoop _ => inLoop
  | _ => false

end Stmt

/-- The list of statements `ss'` is `ss` without dead code; single statements compare by `R`. -/
inductive PrunedBody (R : Bool → Stmt → Stmt → Prop) : Bool → List Stmt → List Stmt → Prop where
  | nil (inLoop : Bool) : PrunedBody R inLoop [] []
  | cons {inLoop : Bool} {s s' : Stmt} {ss ss' : List Stmt} (first : R inLoop s s')
      (rest : PrunedBody R inLoop ss ss') : PrunedBody R inLoop (s :: ss) (s' :: ss')
  /-- What follows a statement that leaves the list does not matter. -/
  | leave {inLoop : Bool} {s : Stmt} (leaves : s.leaves inLoop = true) (ss ss' : List Stmt) :
      PrunedBody R inLoop (s :: ss) (s :: ss')
  /-- A break or a continue without a loop is left out. -/
  | stray {s : Stmt} {ss ss' : List Stmt} (jump : s.isJump = true)
      (rest : PrunedBody R false ss ss') : PrunedBody R false (s :: ss) ss'

/-- The statement `s'` is `s` without dead code in its bodies. A body belongs to a loop if its
statement is one, or if the statement belongs to a loop of the same function. -/
inductive Stmt.Pruned : Bool → Stmt → Stmt → Prop where
  | refl (inLoop : Bool) (s : Stmt) : Pruned inLoop s s
  | ifThen {inLoop : Bool} {ss ss' : List Stmt} (l : Location) (c : Expr)
      (body : PrunedBody Pruned inLoop ss ss') : Pruned inLoop (.ifThen l c ss) (.ifThen l c ss')
  | ifElse {inLoop : Bool} {ss ss' ts ts' : List Stmt} (l : Location) (c : Expr)
      (body : PrunedBody Pruned inLoop ss ss') (otherwise : PrunedBody Pruned inLoop ts ts') :
      Pruned inLoop (.ifElse l c ss ts) (.ifElse l c ss' ts')
  | whileLoop {inLoop : Bool} {ss ss' : List Stmt} (l : Location) (c : Expr)
      (body : PrunedBody Pruned true ss ss') :
      Pruned inLoop (.whileLoop l c ss) (.whileLoop l c ss')
  | forEach {inLoop : Bool} {ss ss' : List Stmt} (l : Location) (vars : LoopVars)
      (iterable : Expr) (body : PrunedBody Pruned true ss ss') :
      Pruned inLoop (.forEach l vars iterable ss) (.forEach l vars iterable ss')
  | function {inLoop : Bool} {ss ss' : List Stmt} (l : Location) (name : Bytes)
      (parameters : List Bytes) (body : PrunedBody Pruned false ss ss') :
      Pruned inLoop (.function l name parameters ss) (.function l name parameters ss')

private theorem PrunedBody.refl (inLoop : Bool) (ss : List Stmt) :
    PrunedBody Stmt.Pruned inLoop ss ss := by
  induction ss with
  | nil => exact .nil inLoop
  | cons s ss ih => exact .cons (.refl inLoop s) ih

/-- The function `f'` is `f` without dead code. -/
structure Function.Pruned (f f' : Function) : Prop where
  name : f'.name = f.name
  parameters : f'.parameters = f.parameters
  body : PrunedBody Stmt.Pruned false f.body f'.body

/-- The program `p'` is `p` without dead code. It declares the same functions in the same order,
each without dead code. -/
structure Program.Pruned (p p' : Program) : Prop where
  location : p'.location = p.location
  functions : List.Forall₂ Function.Pruned p.functions p'.functions
  topLevel : PrunedBody Stmt.Pruned false p.topLevel p'.topLevel

/-- A function is a pruning of itself. -/
theorem Function.Pruned.refl (f : Function) : f.Pruned f := ⟨rfl, rfl, .refl false f.body⟩

/-- A program is a pruning of itself. -/
theorem Program.Pruned.refl (p : Program) : p.Pruned p :=
  ⟨rfl, List.forall₂_same.mpr fun f _ ↦ .refl f, .refl false p.topLevel⟩

namespace Stmt

mutual

/-- The statement without any dead code in its bodies. -/
def prune (inLoop : Bool) : Stmt → Stmt
  | ifThen l c ss => ifThen l c (pruneBody inLoop ss)
  | ifElse l c ss ts => ifElse l c (pruneBody inLoop ss) (pruneBody inLoop ts)
  | whileLoop l c ss => whileLoop l c (pruneBody true ss)
  | forEach l vars iterable ss => forEach l vars iterable (pruneBody true ss)
  | function l name parameters ss => function l name parameters (pruneBody false ss)
  | s => s

/-- The list of statements without any dead code. -/
def pruneBody (inLoop : Bool) : List Stmt → List Stmt
  | [] => []
  | s :: ss =>
    if s.leaves inLoop then [s]
    else if s.isJump then pruneBody inLoop ss
    else s.prune inLoop :: pruneBody inLoop ss

end

/-- The statements of a program without any dead code. Functions stay. -/
def pruneTop : List Stmt → List Stmt
  | [] => []
  | s :: ss =>
    if s.leaves false then s :: (ss.filter (·.function?.isSome)).map (prune false)
    else if s.isJump then pruneTop ss
    else s.prune false :: pruneTop ss

end Stmt

/-- The program without any dead code. -/
def Program.prune (p : Program) : Program := { p with body := Stmt.pruneTop p.body }

namespace Stmt

mutual

/-- Pruning a statement takes nothing but dead code out of it. -/
theorem pruned_prune (inLoop : Bool) (s : Stmt) : Pruned inLoop s (s.prune inLoop) := by
  cases s with
  | ifThen l c ss => exact .ifThen l c (pruned_pruneBody inLoop ss)
  | ifElse l c ss ts =>
    exact .ifElse l c (pruned_pruneBody inLoop ss) (pruned_pruneBody inLoop ts)
  | whileLoop l c ss => exact .whileLoop l c (pruned_pruneBody true ss)
  | forEach l vars iterable ss => exact .forEach l vars iterable (pruned_pruneBody true ss)
  | function l name parameters ss =>
    exact .function l name parameters (pruned_pruneBody false ss)
  | _ => exact .refl inLoop _

/-- Pruning a list takes nothing but dead code out of it. -/
theorem pruned_pruneBody (inLoop : Bool) (ss : List Stmt) :
    PrunedBody Pruned inLoop ss (pruneBody inLoop ss) := by
  cases ss with
  | nil => exact .nil inLoop
  | cons s ss =>
    rw [pruneBody]
    split
    · next leaves => exact .leave leaves ss []
    · next stays =>
      split
      · next jump =>
        -- A jump that does not leave its list has no loop around it.
        have hout : inLoop = false := by
          cases s with
          | breakLoop | continueLoop => exact Bool.eq_false_iff.mpr stays
          | _ => cases jump
        subst hout
        exact .stray jump (pruned_pruneBody false ss)
      · exact .cons (pruned_prune inLoop s) (pruned_pruneBody inLoop ss)

end

private theorem function?_prune (s : Stmt) :
    (s.prune false).function? =
      s.function?.map fun f ↦ { f with body := pruneBody false f.body } := by
  cases s <;> rfl

private theorem function?_eq_none {s : Stmt} (h : s.leaves false = true ∨ s.isJump = true) :
    s.function? = none := by
  cases s with
  | function => rcases h with h | h <;> cases h
  | _ => rfl

/-- The functions of a pruned program are those of the program, pruned. -/
theorem functions_pruneTop (ss : List Stmt) :
    (pruneTop ss).filterMap (·.function?) =
      (ss.filterMap (·.function?)).map fun f ↦ { f with body := pruneBody false f.body } := by
  have hmap (ss : List Stmt) : (ss.map (prune false)).filterMap (·.function?) =
      (ss.filterMap (·.function?)).map fun f ↦ { f with body := pruneBody false f.body } := by
    rw [List.filterMap_map, List.map_filterMap]
    exact congrArg (List.filterMap · ss) (funext function?_prune)
  have hfilter (ss : List Stmt) : (ss.filter (·.function?.isSome)).filterMap (·.function?) =
      ss.filterMap (·.function?) := by
    rw [List.filterMap_filter]
    congr 1
    funext s
    cases s.function? <;> rfl
  induction ss with
  | nil => rfl
  | cons s ss ih =>
    rw [pruneTop]
    split
    · next leaves =>
      rw [List.filterMap_cons_none (function?_eq_none (Or.inl leaves)), hmap, hfilter,
        List.filterMap_cons_none (function?_eq_none (Or.inl leaves))]
    · split
      · next jump => rw [ih, List.filterMap_cons_none (function?_eq_none (Or.inr jump))]
      · have hs := function?_prune s
        cases hf : s.function? with
        | none =>
          rw [hf] at hs
          rw [List.filterMap_cons_none hs, List.filterMap_cons_none hf, ih]
        | some f =>
          rw [hf] at hs
          rw [List.filterMap_cons_some hs, List.filterMap_cons_some hf, ih, List.map_cons]

/-- The other statements of a pruned program are those of the program, pruned. -/
theorem topLevel_pruneTop (ss : List Stmt) :
    (pruneTop ss).filter (·.function?.isNone) =
      pruneBody false (ss.filter (·.function?.isNone)) := by
  induction ss with
  | nil => rfl
  | cons s ss ih =>
    rw [pruneTop]
    split
    · next leaves =>
      -- Behind the statement that leaves the list only functions have been kept.
      have hs : s.function?.isNone = true := by rw [function?_eq_none (Or.inl leaves)]; rfl
      have hrest : ((ss.filter (·.function?.isSome)).map (prune false)).filter
          (·.function?.isNone) = [] := by
        rw [List.filter_map, List.map_eq_nil_iff, List.filter_filter, List.filter_eq_nil_iff]
        intro t _
        rw [Function.comp_apply, function?_prune, Option.isNone_map]
        cases t.function? <;> exact Bool.false_ne_true
      simp only [List.filter_cons, hs, if_true, hrest, pruneBody, leaves]
    · next stays =>
      split
      · next jump =>
        have hs : s.function?.isNone = true := by rw [function?_eq_none (Or.inr jump)]; rfl
        simp only [List.filter_cons, hs, if_true, ih, pruneBody, stays, jump, Bool.false_eq_true,
          if_false]
      · next quiet =>
        have hprune := congrArg Option.isNone (function?_prune s)
        rw [Option.isNone_map] at hprune
        cases hs : s.function?.isNone with
        | true =>
          simp only [List.filter_cons, hprune, hs, if_true, ih, pruneBody, stays, quiet,
            Bool.false_eq_true, if_false]
        | false => simp only [List.filter_cons, hprune, hs, Bool.false_eq_true, if_false, ih]

end Stmt

/-- A program may be rid of all its dead code. -/
theorem Program.pruned_prune (p : Program) : p.Pruned p.prune where
  location := rfl
  functions := by
    rw [functions, functions, prune, Stmt.functions_pruneTop, List.forall₂_map_right_iff,
      List.forall₂_same]
    exact fun f _ ↦ ⟨rfl, rfl, Stmt.pruned_pruneBody false f.body⟩
  topLevel := by
    rw [topLevel, topLevel, prune, Stmt.topLevel_pruneTop]
    exact Stmt.pruned_pruneBody false _

end Scriptlet
