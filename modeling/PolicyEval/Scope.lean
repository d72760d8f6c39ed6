import PolicyEval.Scope.Flat
import PolicyEval.Scope.Lexical

/-!
# Scope checks

Before a program is evaluated, its variables and binders are checked.  The lexical check accepts
exactly the programs in which every variable is bound where it stands and no binder repeats a name.
The flat check accepts more.
-/

namespace PolicyEval

/-- Which check a program must pass. -/
inductive ScopeMode where
  | lexical | flat
deriving DecidableEq, Inhabited

/-- The word for a check. -/
def ScopeMode.text : ScopeMode → String
  | lexical => "lexical"
  | flat => "flat"

/-- Checks a program. -/
def checkScopes (mode : ScopeMode) (root : Expr) : Except ScopeError Unit :=
  match mode with
  | .lexical => checkLexical root
  | .flat => checkFlat root

end PolicyEval
