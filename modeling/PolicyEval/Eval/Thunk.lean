import PolicyEval.Eval.Basic

/-!
# Delaying and forcing

A discipline turns an expression into a thunk, and forcing a thunk gives its value.  Both take the
evaluator as an argument, since forcing evaluates expressions and evaluating forces thunks.

* `delay` — the thunk of an expression under a discipline.
* `force` — the value of a thunk.  A thunk that keeps its result and has none yet is evaluated; if
  that fails it stays without one.
* `forceTail` — the value of the second part of a list cell, which must be a list.
-/

namespace PolicyEval

/-- What evaluates an expression under a setting in an environment. -/
abbrev Evaluator := Setting → Env → Expr → Eval Value

/-- A new cell of the store. -/
def Eval.allocate : Eval Nat :=
  modifyGet fun s =>
    let (address, store) := s.store.allocate
    (address, { s with store })

/-- Keeps the result of a cell and gives the value that the cell now has: a result that is already
there stays. -/
def Eval.keep (address : Nat) (v : Value) : Eval Value :=
  modifyGet fun s =>
    match s.store.kept? address with
    | some kept => (kept, s)
    | none => (v, { s with store := s.store.keep address v })

/-- The thunk of an expression under a discipline. -/
def delay (ev : Evaluator) (d : Discipline) (setting : Setting) (env : Env) (e : Expr) :
    Eval Thunk :=
  match d with
  | .value => do return .ready (← ev setting env e)
  | .name => return .byName ⟨setting, env, e⟩
  | .need => do return .byNeed (← Eval.allocate) ⟨setting, env, e⟩

/-- Evaluates a suspended expression. -/
def Suspension.run (ev : Evaluator) : Suspension → Eval Value
  | ⟨setting, env, e⟩ => do
    Eval.count Counters.countForced
    ev setting env e

/-- The value of a thunk. -/
def force (ev : Evaluator) : Thunk → Eval Value
  | .ready v => pure v
  | .byName s => s.run ev
  | .byNeed address s => do
    match (← get).store.kept? address with
    | some v => pure v
    | none => Eval.keep address (← s.run ev)

/-- A value that is to be the second part of a list cell. -/
def asTail (v : Value) : Except FaultCause Value :=
  if v.isList then .ok v else .error (.tailNotAList v.describe)

/-- The value of the second part of a list cell. -/
def forceTail (ev : Evaluator) (tail : Thunk) : Eval Value := do
  Eval.lift (asTail (← force ev tail))

end PolicyEval
