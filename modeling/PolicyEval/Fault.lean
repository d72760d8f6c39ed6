import PolicyEval.Depth
import PolicyEval.Diagnostic
import PolicyEval.Value

/-!
# Faults — evaluations that fail

A fault has a cause and, as soon as it leaves the innermost expression under evaluation, the span of
that expression.  Nothing catches a fault: it ends the evaluation.

* `FaultCause` — why an evaluation failed.
* `Fault.message`, `Fault.code`, `Fault.diagnostic` — what is reported.
-/

namespace PolicyEval

/-- Operations that want operands of one kind. -/
inductive Operation where
  /-- A unary operator. -/
  | unary (op : UnaryOp)
  /-- A binary operator. -/
  | binary (op : BinaryOp)
  /-- The test of a choice. -/
  | test
  /-- The primitive that gives the arity of a function. -/
  | arity
deriving DecidableEq

namespace Operation

/-- The written form of an operation. -/
def symbol : Operation → String
  | unary op => op.symbol
  | binary op => op.symbol
  | test => "if"
  | arity => Prim.arity.name

/-- The kind of operand that the operation wants. -/
def expects : Operation → String
  | unary .not | binary .and | binary .or | test => "a boolean"
  | unary _ | binary _ => "an integer"
  | arity => "a function"

end Operation

/-- Why an evaluation failed. -/
inductive FaultCause where
  /-- A variable has no binding. -/
  | unboundVariable (name : Name)
  /-- A value was called that is no function. -/
  | notAFunction (found : Description)
  /-- A closure was called with the wrong number of arguments. -/
  | closureArity (expected found : Nat)
  /-- A primitive was called with the wrong number of arguments. -/
  | primArity (p : Prim) (found : Nat)
  /-- An operation was given an operand of the wrong kind. -/
  | typeMismatch (operation : Operation) (found : Description)
  /-- A division by zero. -/
  | divisionByZero
  /-- A primitive that takes a list cell apart was given something else. -/
  | notACell (p : Prim) (found : Description)
  /-- The second part of a list cell is no list. -/
  | tailNotAList (found : Description)
  /-- The result of an operation does not fit. -/
  | integerOverflow (operation : Operation)
  /-- The evaluation was nested too deep. -/
  | recursionLimit (limit : Nat)
deriving DecidableEq

namespace FaultCause

/-- The code of the failure. -/
def code : FaultCause → ErrorCode
  | unboundVariable _ => .unboundVariable
  | notAFunction _ => .notAFunction
  | closureArity .. | primArity .. => .arityMismatch
  | typeMismatch .. => .typeMismatch
  | divisionByZero => .divisionByZero
  | notACell .. | tailNotAList _ => .listShape
  | integerOverflow _ => .integerOverflow
  | recursionLimit _ => .recursionLimit

/-- A number of arguments in words. -/
def argumentCount (n : Nat) : String :=
  if n = 1 then s!"{n} argument" else s!"{n} arguments"

/-- The message of the failure. -/
def message : FaultCause → String
  | unboundVariable name => s!"unbound variable `{name.text}`"
  | notAFunction found => s!"{found.text} is not a function"
  | closureArity expected found => s!"closure expects {argumentCount expected}, found {found}"
  | primArity p found => s!"`{p.name}` expects {argumentCount p.argCount}, found {found}"
  | typeMismatch operation found =>
    s!"`{operation.symbol}` expects {operation.expects}, found {found.text}"
  | divisionByZero => "division by zero"
  | notACell p found => s!"`{p.name}` expects a non-empty list, found {found.text}"
  | tailNotAList found =>
    s!"`{Prim.cons.name}` expects a list as its tail, found {found.text}"
  | integerOverflow operation => s!"integer overflow in `{operation.symbol}`"
  | recursionLimit limit => Depth.exceededMessage limit

/-- The remark on the expression that failed. -/
def label : FaultCause → String
  | unboundVariable _ => "not bound here"
  | notAFunction _ => "applied here"
  | closureArity .. | primArity .. => "called here"
  | typeMismatch .. => "in this expression"
  | divisionByZero => "divisor is zero"
  | notACell .. | tailNotAList _ => "in this list operation"
  | integerOverflow _ => "result does not fit in 64 bits"
  | recursionLimit _ => "while evaluating this"

/-- Advice on the failure. -/
def notes : FaultCause → List String
  | unboundVariable _ =>
    ["the context check was skipped or run with flat scopes; " ++
      "run `jam check` to see where the name escapes its binder"]
  | recursionLimit _ =>
    ["an eager `cons` over a self-referential definition never terminates",
     "try `--lists=name` or `--lists=need`, or raise `--max-depth`"]
  | _ => []

end FaultCause

/-- A failed evaluation, with the span of the innermost expression that was under evaluation. -/
structure Fault where
  cause : FaultCause
  span : Option Span
deriving DecidableEq

namespace Fault

/-- The fault as it leaves an expression: it gets that span unless it already has one. -/
def leaving (f : Fault) (span : Span) : Fault :=
  { f with span := some (f.span.getD span) }

/-- The code of the failure. -/
def code (f : Fault) : ErrorCode := f.cause.code

/-- The message of the failure. -/
def message (f : Fault) : String := f.cause.message

/-- The report on the failure. -/
def diagnostic (f : Fault) : Diagnostic :=
  let base := Diagnostic.new f.code f.message
  let labelled :=
    match f.span with
    | some span => base.withPrimary span f.cause.label
    | none => base
  f.cause.notes.foldl Diagnostic.withNote labelled

end Fault

end PolicyEval
