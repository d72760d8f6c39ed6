import PolicyEval.Expr

/-!
# Expressions from node tables

An expression can be given as a table of nodes that name their children by position.  Children
stand before their parents, and a node may be the child of several parents; the number of a node is
its position.

* `Node` — a row of a table.
* `Node.build?` — the expression of a row over the expressions of the rows before it.
* `Node.buildAll?` — the expressions of all rows.
* `tableSummary` — how many nodes, arguments, parameters and definitions a table has.
-/

namespace PolicyEval

/-- A row of a node table: a node whose children are positions of rows. -/
inductive Node where
  | int (span : Span) (value : Int)
  | bool (span : Span) (value : Bool)
  | null (span : Span)
  | ident (span : Span) (name : Name)
  | prim (span : Span) (p : Prim)
  | unary (span : Span) (op : UnaryOp) (operand : Nat)
  | binary (span : Span) (op : BinaryOp) (left right : Nat)
  | call (span : Span) (callee : Nat) (args : List Nat)
  | map (span : Span) (params : List Binder) (body : Nat)
  | cond (span : Span) (test yes no : Nat)
  | letIn (span : Span) (defs : List (Binder × Nat)) (body : Nat)
deriving DecidableEq

namespace Node

/-- The expression of a row over the expressions of the rows before it, if those rows exist. -/
def build? (before : Array Expr) (node : Node) : Option Expr :=
  let id := before.size
  match node with
  | int span n => some (.int ⟨id, span⟩ n)
  | bool span b => some (.bool ⟨id, span⟩ b)
  | null span => some (.null ⟨id, span⟩)
  | ident span name => some (.ident ⟨id, span⟩ name)
  | prim span p => some (.prim ⟨id, span⟩ p)
  | unary span op operand => do return .unary ⟨id, span⟩ op (← before[operand]?)
  | binary span op left right => do
    return .binary ⟨id, span⟩ op (← before[left]?) (← before[right]?)
  | call span callee args => do
    return .call ⟨id, span⟩ (← before[callee]?) (← args.mapM fun arg => before[arg]?)
  | map span params body => do return .map ⟨id, span⟩ params (← before[body]?)
  | cond span test yes no => do
    return .cond ⟨id, span⟩ (← before[test]?) (← before[yes]?) (← before[no]?)
  | letIn span defs body => do
    let inits ← defs.mapM fun d => before[d.2]?
    return .letIn ⟨id, span⟩ ((defs.map Prod.fst).zip inits) (← before[body]?)

/-- The expressions of rows behind the expressions of the rows before them. -/
def buildFrom? (before : Array Expr) : List Node → Option (Array Expr)
  | [] => some before
  | node :: nodes =>
    match node.build? before with
    | some e => buildFrom? (before.push e) nodes
    | none => none

/-- The expressions of all rows of a table. -/
def buildAll? (nodes : List Node) : Option (Array Expr) := buildFrom? #[] nodes

/-- The number of arguments in a row. -/
def argCount : Node → Nat
  | call _ _ args => args.length
  | _ => 0

/-- The number of parameters in a row. -/
def paramCount : Node → Nat
  | map _ params _ => params.length
  | _ => 0

/-- The number of definitions in a row. -/
def defCount : Node → Nat
  | letIn _ defs _ => defs.length
  | _ => 0

end Node

/-- The size of a node table: rows, arguments of calls, parameters and definitions. -/
def tableSummary (nodes : List Node) : String :=
  let total := fun (count : Node → Nat) => nodes.foldl (fun n node => n + count node) 0
  let args := total Node.argCount
  let params := total Node.paramCount
  let defs := total Node.defCount
  s!"ExprArena \x7b exprs: {nodes.length}, expr_lists: {args}, params: {params}, defs: {defs} \x7d"

end PolicyEval
