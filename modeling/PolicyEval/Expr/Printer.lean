import PolicyEval.Expr

/-!
# Printing expressions

An expression is printed as a program that reads back as the same expression.  Parentheses stand
only where the context needs them: the context of an expression is a number, and an expression whose
own binding is looser than its context is put in parentheses.

* context 0 takes any expression;
* contexts 1 to 5 are the levels of binary operators, and a right operand stands one level higher
  than its operator, because equal levels group to the left;
* context 6 is the operand of a unary operator, and context 7 is a callee.
-/

namespace PolicyEval

namespace Expr

/-- The context of an expression that stands by itself. -/
def anyContext : Nat := 0

/-- The context of an operand of a unary operator. -/
def unaryContext : Nat := 6

/-- The context of a callee. -/
def calleeContext : Nat := 7

/-- Puts a text in parentheses if asked to. -/
def parenthesize (wrap : Bool) (s : String) : String :=
  if wrap then "(" ++ s ++ ")" else s

/-- The parameters of a function, each followed by what separates it from the rest. -/
def printParams : List Binder → String
  | [] => ""
  | [p] => p.name.text ++ " "
  | p :: ps => p.name.text ++ ", " ++ printParams ps

mutual
/-- The text of an expression in a context. -/
def printIn (context : Nat) : Expr → String
  | int _ n => toString n
  | bool _ true => "true"
  | bool _ false => "false"
  | null _ => "null"
  | ident _ name => name.text
  | prim _ p => p.name
  | unary _ op operand =>
    parenthesize (decide (unaryContext < context)) (op.symbol ++ operand.printIn unaryContext)
  | binary _ op left right =>
    parenthesize (decide (op.precedence < context))
      (left.printIn op.precedence ++ " " ++ op.symbol ++ " " ++ right.printIn (op.precedence + 1))
  | call _ callee args =>
    parenthesize callee.isConstant (callee.printIn calleeContext) ++ "(" ++ printArgs args ++ ")"
  | map _ params body =>
    parenthesize (decide (anyContext < context))
      ("map " ++ printParams params ++ "to " ++ body.printIn anyContext)
  | cond _ test yes no =>
    parenthesize (decide (anyContext < context))
      ("if " ++ test.printIn anyContext ++ " then " ++ yes.printIn anyContext ++
        " else " ++ no.printIn anyContext)
  | letIn _ defs body =>
    parenthesize (decide (anyContext < context))
      ("let " ++ printDefs defs ++ "in " ++ body.printIn anyContext)

/-- The text of the arguments of a call. -/
def printArgs : List Expr → String
  | [] => ""
  | [e] => e.printIn anyContext
  | e :: e' :: es => e.printIn anyContext ++ ", " ++ printArgs (e' :: es)

/-- The text of definitions, each closed by a semicolon. -/
def printDefs : List (Binder × Expr) → String
  | [] => ""
  | (b, e) :: ds => b.name.text ++ " := " ++ e.printIn anyContext ++ "; " ++ printDefs ds
end

/-- The text of an expression. -/
def print (e : Expr) : String := e.printIn anyContext

end Expr

end PolicyEval
