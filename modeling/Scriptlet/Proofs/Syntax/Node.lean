import Mathlib.Logic.Relation
import Scriptlet.Syntax.Basic

/-!
# The nodes of a program

A program is a tree of statements and expressions, each with a place of its own. What a run
does can be traced back to these nodes: to the program itself, or to something below it.
-/

namespace Scriptlet

namespace Expr

/-- The expressions right below an expression. -/
def children : Expr → List Expr
  | unary _ _ operand => [operand]
  | binary _ _ left right => [left, right]
  | index _ object key => [object, key]
  | array _ elements => elements
  | dict _ entries => entries.flatMap fun (key, value) ↦ [key, value]
  | call _ receiver _ arguments => receiver.operands arguments
  | absent | int .. | str .. | bool .. | .none _ | ident .. | bare _ => []

/-- They are smaller. -/
theorem sizeOf_lt_of_mem_children {e e' : Expr} (h : e' ∈ e.children) : sizeOf e' < sizeOf e := by
  cases e with
  | unary l op operand =>
    cases List.mem_singleton.mp h
    simp only [unary.sizeOf_spec]
    omega
  | binary l op left right =>
    simp only [children, List.mem_cons, List.not_mem_nil, or_false] at h
    simp only [binary.sizeOf_spec]
    rcases h with rfl | rfl <;> omega
  | index l object key =>
    simp only [children, List.mem_cons, List.not_mem_nil, or_false] at h
    simp only [index.sizeOf_spec]
    rcases h with rfl | rfl <;> omega
  | array l elements =>
    have hlt : sizeOf e' < sizeOf elements := List.sizeOf_lt_of_mem h
    simp only [array.sizeOf_spec]
    omega
  | dict l entries =>
    obtain ⟨⟨key, value⟩, hmem, he'⟩ := List.mem_flatMap.mp h
    have hlt := List.sizeOf_lt_of_mem hmem
    simp only [List.mem_cons, List.not_mem_nil, or_false] at he'
    simp only [Prod.mk.sizeOf_spec] at hlt
    simp only [dict.sizeOf_spec]
    rcases he' with rfl | rfl <;> omega
  | call l receiver callee arguments =>
    have hmem : e' = receiver ∨ e' ∈ arguments := by
      cases receiver with
      | absent => exact Or.inr h
      | _ => exact List.mem_cons.mp h
    simp only [call.sizeOf_spec]
    rcases hmem with rfl | hmem
    · omega
    · have hlt := List.sizeOf_lt_of_mem hmem
      omega
  | _ => cases h

end Expr

namespace Stmt

/-- The expressions right below a statement. -/
def expressions : Stmt → List Expr
  | declare _ _ value => [value]
  | assign _ target _ value => [target, value]
  | print _ arguments => arguments
  | evaluate _ expression => [expression]
  | ifThen _ condition _ | ifElse _ condition _ _ | whileLoop _ condition _ => [condition]
  | forEach _ _ iterable _ => [iterable]
  | returnValue _ value => [value]
  | absent | breakLoop _ | continueLoop _ | function .. | bare _ => []

/-- The statements right below a statement. -/
def statements : Stmt → List Stmt
  | ifThen _ _ body | whileLoop _ _ body | forEach _ _ _ body | function _ _ _ body => body
  | ifElse _ _ body otherwise => body ++ otherwise
  | absent | declare .. | assign .. | print .. | evaluate .. | breakLoop _ | continueLoop _
  | returnValue .. | bare _ => []

/-- Whether a statement is there at all. -/
def isPresent : Stmt → Bool
  | absent => false
  | _ => true

end Stmt

/-- A place in the tree of a program: one of its nodes, or a child that was left out. -/
inductive Node where
  | expr (e : Expr)
  | stmt (s : Stmt)
  | program (p : Program)

namespace Node

/-- What lies right below a node. -/
def children : Node → List Node
  | expr e => e.children.map expr
  | stmt s => s.expressions.map expr ++ s.statements.map stmt
  | program p => p.body.map stmt

/-- The place of a node. -/
def location : Node → Location
  | expr e => e.location
  | stmt s => s.location
  | program p => p.location

/-- Whether there is a node at all. -/
def isPresent : Node → Bool
  | expr e => e.isPresent
  | stmt s => s.isPresent
  | program _ => true

/-- A node belongs to the tree below another one, which may be the node itself. -/
def Below (root : Node) : Node → Prop := Relation.ReflTransGen (fun a b ↦ b ∈ a.children) root

/-- Every node belongs to its own tree. -/
theorem Below.refl (root : Node) : root.Below root := Relation.ReflTransGen.refl

/-- What lies right below a node of a tree belongs to the tree. -/
theorem Below.child {root a b : Node} (h : root.Below a) (hb : b ∈ a.children) : root.Below b :=
  Relation.ReflTransGen.tail h hb

/-- A statement of a program's list belongs to the program. -/
theorem Below.of_mem_body {p : Program} {s : Stmt} (hs : s ∈ p.body) :
    (Node.program p).Below (.stmt s) := (Below.refl _).child (List.mem_map_of_mem hs)

/-- An expression right below a statement is one of its children. -/
theorem expr_mem_children {s : Stmt} {e : Expr} (he : e ∈ s.expressions) :
    expr e ∈ (stmt s).children := List.mem_append_left _ (List.mem_map_of_mem he)

/-- A statement right below a statement is one of its children. -/
theorem stmt_mem_children {s t : Stmt} (ht : t ∈ s.statements) :
    stmt t ∈ (stmt s).children := List.mem_append_right _ (List.mem_map_of_mem ht)

end Node
end Scriptlet
