import PolicyEval.Scope.Basic

/-!
# The lexical check

A variable is bound where it stands if an enclosing function has it as a parameter, or if it stands
in the body of enclosing definitions that define it.  Right-hand sides of definitions do not see the
names that are defined beside them.

* `checkIn` — checks an expression within the names bound around it.
* `checkLexical` — checks a whole program.
-/

namespace PolicyEval

mutual
/-- Checks an expression whose enclosing forms bind the names `scope`. -/
def checkIn (scope : List Name) : Expr → Except ScopeError Unit
  | .int .. | .bool .. | .null _ | .prim .. => .ok ()
  | .ident place name => checkBound scope place name
  | .unary _ _ operand => checkIn scope operand
  | .binary _ _ left right => do
    checkIn scope left
    checkIn scope right
  | .call _ callee args => do
    checkIn scope callee
    checkListIn scope args
  | .map _ params body => do
    checkDistinct .map params
    checkIn (params.map Binder.name ++ scope) body
  | .cond _ test yes no => do
    checkIn scope test
    checkIn scope yes
    checkIn scope no
  | .letIn _ defs body => do
    checkDistinct .letIn (defs.map Prod.fst)
    checkDefsIn scope defs
    checkIn (defs.map (fun d => d.1.name) ++ scope) body

/-- Checks several expressions from left to right. -/
def checkListIn (scope : List Name) : List Expr → Except ScopeError Unit
  | [] => .ok ()
  | e :: es => do
    checkIn scope e
    checkListIn scope es

/-- Checks the right-hand sides of definitions, which see the enclosing scope only. -/
def checkDefsIn (scope : List Name) : List (Binder × Expr) → Except ScopeError Unit
  | [] => .ok ()
  | (_, e) :: ds => do
    checkIn scope e
    checkDefsIn scope ds
end

/-- Checks that every variable of a program is bound where it stands and that no binder repeats a
name. -/
def checkLexical (root : Expr) : Except ScopeError Unit := checkIn [] root

end PolicyEval
