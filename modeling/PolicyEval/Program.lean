import PolicyEval.Expr.Parser
import PolicyEval.Render
import PolicyEval.Scope

/-!
# Programs — from a source to the text of its value

A program is an expression that was read from a source and passed a scope check.  Running it
evaluates it in the empty environment and renders its value.

* `Problem` — the first failure of any phase.
* `readProgram` — the checked expression of a source.
* `runProgram` — the text of a program's value, as a computation.
* `runSource` — a source evaluated under one configuration.
* `runAll` — a source evaluated under all nine policies.
-/

namespace PolicyEval

/-! ## Problems -/

/-- The first failure that a source runs into. -/
inductive Problem where
  /-- The source does not spell an expression. -/
  | unreadable (e : SyntaxError)
  /-- The expression fails its scope check. -/
  | illScoped (e : ScopeError)
  /-- The evaluation fails. -/
  | fault (f : Fault)
deriving DecidableEq

namespace Problem

/-- The code of the failure. -/
def code : Problem → ErrorCode
  | unreadable e => e.code
  | illScoped e => e.code
  | fault f => f.code

/-- The message of the failure. -/
def message : Problem → String
  | unreadable e => e.message
  | illScoped e => e.message
  | fault f => f.message

/-- The place of the failure. -/
def span? : Problem → Option Span
  | unreadable e => some e.span
  | illScoped e => some e.span
  | fault f => f.span

/-- The report on the failure. -/
def diagnostic : Problem → Diagnostic
  | unreadable e => e.diagnostic
  | illScoped e => e.diagnostic
  | fault f => f.diagnostic

/-- The failure in one line. -/
def summary (p : Problem) : String := s!"error[{p.code.text}]: {p.message}"

end Problem

/-! ## Running -/

/-- The checked expression of a source. -/
def readProgram (mode : ScopeMode) (source : String) : Except Problem Expr :=
  match Expr.ofSource source with
  | .error e => .error (.unreadable e)
  | .ok root =>
    match checkScopes mode root with
    | .error e => .error (.illScoped e)
    | .ok () => .ok root

/-- The value of a program. -/
def evalProgram (fuel : Nat) (setting : Setting) (root : Expr) : Eval Value :=
  eval fuel setting .empty root

/-- The text of a program's value. -/
def runProgram (fuel : Nat) (config : Config) (root : Expr) : Eval String := do
  let v ← evalProgram fuel config.setting root
  renderValue (eval fuel) config.printDepth v

/-- How a computation ended and what it counted. -/
structure Report (α : Type) where
  result : Except Stop α
  profile : Counters
  store : Store

/-- Runs a computation over a store. -/
def Eval.report {α : Type} (store : Store) (body : Eval α) : Report α :=
  match body (State.start store) with
  | .ok a s => ⟨.ok a, s.profile, s.store⟩
  | .error stop s => ⟨.error stop, s.profile, s.store⟩

/-- A source evaluated under one configuration: the text of its value and the profile of the
evaluation. -/
def runSource (fuel : Nat) (mode : ScopeMode) (config : Config) (source : String) :
    Except Problem (Report String) :=
  (readProgram mode source).map fun root => (runProgram fuel config root).report .empty

/-- A source evaluated under all nine policies with the limits of a configuration. -/
def runAll (fuel : Nat) (mode : ScopeMode) (config : Config) (source : String) :
    Except Problem (List (Policy × Except Stop String)) :=
  (readProgram mode source).map fun root =>
    Policy.all.map fun policy =>
      let config := { config with setting := { config.setting with policy } }
      (policy, ((runProgram fuel config root).report .empty).result)

/-- One line for the outcome of one policy; `none` if it has no outcome for lack of fuel. -/
def outcomeLine? (policy : Policy) : Except Stop String → Option String
  | .ok text => some s!"{policy.text}: {text}"
  | .error (.fault f) => some s!"{policy.text}: {(Problem.fault f).summary}"
  | .error .outOfFuel => none

/-- More fuel than an evaluation can spend before the memory of a machine is full of its levels. -/
def ampleFuel : Nat := 4611686018427387904

end PolicyEval
