import PolicyEval.Span
import PolicyEval.Name
import PolicyEval.Operator

/-!
# Expressions

A program is one expression.  Every node of an expression tree carries its place: a number, which
tells it apart from every other node of its program, and its span in the source.  In a tree that was
read from a source the numbers count the nodes in post-order from 0.

* `Expr` — the tree.
* `Expr.postorder` — all nodes, children before their parents and left before right.
* `Expr.size` — the number of nodes.
-/

namespace PolicyEval

/-- Where a node stands: its number within the program and its span in the source. -/
structure Place where
  id : Nat
  span : Span
deriving DecidableEq, Inhabited

/-- A name at the place where it is bound. -/
structure Binder where
  name : Name
  span : Span
deriving DecidableEq, Inhabited

/-- Expressions. -/
inductive Expr where
  /-- An integer. -/
  | int (place : Place) (value : Int)
  /-- A truth value. -/
  | bool (place : Place) (value : Bool)
  /-- The empty list. -/
  | null (place : Place)
  /-- A variable. -/
  | ident (place : Place) (name : Name)
  /-- A primitive function. -/
  | prim (place : Place) (p : Prim)
  /-- A unary operator and its operand. -/
  | unary (place : Place) (op : UnaryOp) (operand : Expr)
  /-- A binary operator between its operands. -/
  | binary (place : Place) (op : BinaryOp) (left right : Expr)
  /-- A call: the callee and its arguments. -/
  | call (place : Place) (callee : Expr) (args : List Expr)
  /-- A function: its parameters and its body. -/
  | map (place : Place) (params : List Binder) (body : Expr)
  /-- A choice between two branches. -/
  | cond (place : Place) (test yes no : Expr)
  /-- Simultaneous definitions and the body in which they hold. -/
  | letIn (place : Place) (defs : List (Binder × Expr)) (body : Expr)
deriving Inhabited

namespace Expr

/-- The place of the root node. -/
def place : Expr → Place
  | int p _ | bool p _ | null p | ident p _ | prim p _ | unary p _ _ | binary p _ _ _
  | call p _ _ | map p _ _ | cond p _ _ _ | letIn p _ _ => p

/-- The number of the root node. -/
def nodeId (e : Expr) : Nat := e.place.id

/-- The span of the root node. -/
def span (e : Expr) : Span := e.place.span

/-- Whether the expression is a constant, which cannot be called without parentheses. -/
def isConstant : Expr → Bool
  | int .. | bool .. | null _ => true
  | _ => false

mutual
/-- The number of nodes of a tree. -/
def size : Expr → Nat
  | int .. | bool .. | null _ | ident .. | prim .. => 1
  | unary _ _ operand => operand.size + 1
  | binary _ _ left right => left.size + right.size + 1
  | call _ callee args => callee.size + sizeList args + 1
  | map _ _ body => body.size + 1
  | cond _ test yes no => test.size + yes.size + no.size + 1
  | letIn _ defs body => sizeDefs defs + body.size + 1

/-- The number of nodes of several trees. -/
def sizeList : List Expr → Nat
  | [] => 0
  | e :: es => e.size + sizeList es

/-- The number of nodes of the right-hand sides of definitions. -/
def sizeDefs : List (Binder × Expr) → Nat
  | [] => 0
  | (_, e) :: ds => e.size + sizeDefs ds
end

mutual
/-- Puts the nodes of a tree behind the nodes `done`: children before their parents, left before
right. -/
def pushNodes (done : Array Expr) : Expr → Array Expr
  | e@(int ..) | e@(bool ..) | e@(null _) | e@(ident ..) | e@(prim ..) => done.push e
  | e@(unary _ _ operand) => (operand.pushNodes done).push e
  | e@(binary _ _ left right) => (right.pushNodes (left.pushNodes done)).push e
  | e@(call _ callee args) => (pushNodesList (callee.pushNodes done) args).push e
  | e@(map _ _ body) => (body.pushNodes done).push e
  | e@(cond _ test yes no) => (no.pushNodes (yes.pushNodes (test.pushNodes done))).push e
  | e@(letIn _ defs body) => (body.pushNodes (pushNodesDefs done defs)).push e

/-- Puts the nodes of several trees behind the nodes `done`. -/
def pushNodesList (done : Array Expr) : List Expr → Array Expr
  | [] => done
  | e :: es => pushNodesList (e.pushNodes done) es

/-- Puts the nodes of right-hand sides behind the nodes `done`. -/
def pushNodesDefs (done : Array Expr) : List (Binder × Expr) → Array Expr
  | [] => done
  | (_, e) :: ds => pushNodesDefs (e.pushNodes done) ds
end

/-- The nodes of a tree in post-order. -/
def postorder (e : Expr) : Array Expr := e.pushNodes #[]

theorem size_pos (e : Expr) : 0 < e.size := by
  cases e <;> simp [size]

end Expr

end PolicyEval
