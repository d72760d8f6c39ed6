import PolicyEval.Diagnostic
import PolicyEval.Expr

/-!
# Scope errors and names in scope

A scope check fails at a variable that nothing binds, or at a binder that repeats a name.

* `ScopeError` — a failed check, with its place.
* `firstRepeat?` — the first binder of a list whose name stood before.
* `checkDistinct`, `checkBound` — the two tests of which the checks consist.
-/

namespace PolicyEval

/-! ## Errors -/

/-- The forms that bind names. -/
inductive BinderKind where
  | map | letIn
deriving DecidableEq

/-- The word for a form that binds names. -/
def BinderKind.text : BinderKind → String
  | map => "map"
  | letIn => "let"

/-- What is wrong with the scopes of a program. -/
inductive ScopeCause where
  /-- A variable that nothing binds. -/
  | freeVariable (name : Name)
  /-- A name bound twice by one form, with the span where it was bound first. -/
  | duplicateBinding (name : Name) (kind : BinderKind) (first : Span)
deriving DecidableEq

/-- A failed scope check, with its place. -/
structure ScopeError where
  cause : ScopeCause
  span : Span
deriving DecidableEq

namespace ScopeError

/-- The code of the failure. -/
def code (e : ScopeError) : ErrorCode :=
  match e.cause with
  | .freeVariable _ => .freeVariable
  | .duplicateBinding .. => .duplicateBinding

/-- The message of the failure. -/
def message (e : ScopeError) : String :=
  match e.cause with
  | .freeVariable name => s!"`{name.text}` is a free variable"
  | .duplicateBinding name kind _ => s!"`{name.text}` is repeated in {kind.text}"

/-- The report on the failure. -/
def diagnostic (e : ScopeError) : Diagnostic :=
  let base := Diagnostic.new e.code e.message
  match e.cause with
  | .freeVariable _ =>
    (base.withPrimary e.span "not bound by any enclosing `map` or `let`").withNote
      "`let` definitions cannot see the names bound by their own `let`"
  | .duplicateBinding _ _ first =>
    (base.withPrimary e.span "bound again here").withSecondary first "first bound here"

end ScopeError

/-! ## Names in scope -/

/-- Whether a name is among the given ones. -/
def inScope (scope : List Name) (name : Name) : Bool := scope.any fun n => n.same name

/-- The first binder whose name stood before, together with the binder where it stood; `seen` are
the binders met so far. -/
def firstRepeat? (seen : List Binder) : List Binder → Option (Binder × Binder)
  | [] => none
  | b :: rest =>
    match seen.find? fun s => s.name.same b.name with
    | some earlier => some (earlier, b)
    | none => firstRepeat? (b :: seen) rest

/-- Checks that no name is bound twice. -/
def checkDistinct (kind : BinderKind) (binders : List Binder) : Except ScopeError Unit :=
  match firstRepeat? [] binders with
  | some (earlier, repeated) =>
    .error ⟨.duplicateBinding repeated.name kind earlier.span, repeated.span⟩
  | none => .ok ()

/-- Checks that a variable is bound. -/
def checkBound (scope : List Name) (place : Place) (name : Name) : Except ScopeError Unit :=
  if inScope scope name then .ok () else .error ⟨.freeVariable name, place.span⟩

end PolicyEval
