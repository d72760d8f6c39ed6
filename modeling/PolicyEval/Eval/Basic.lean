import PolicyEval.Counters
import PolicyEval.Fault
import PolicyEval.Store

/-!
# Computations of an evaluation

An evaluation reads and changes a state: the store, the depth counter and the counters.  It ends
with a value or with a fault; a computation that was given too little fuel ends with neither.  The
state is kept in every case, so what was counted or cached before a fault stays.

* `Eval` — computations over the state.
* `Eval.within` — runs a computation one level deeper, for an expression with the given span.
-/

namespace PolicyEval

/-- What an evaluation reads and changes. -/
structure State where
  store : Store
  depth : Depth
  counters : Counters
deriving Inhabited

namespace State

/-- The state in which an evaluation over a store starts. -/
def start (store : Store) : State := ⟨store, .zero, .zero⟩

/-- The counters with the deepest nesting filled in. -/
def profile (s : State) : Counters := { s.counters with maxDepth := s.depth.deepest }

end State

/-- Why a computation has no result. -/
inductive Stop where
  /-- The evaluation failed. -/
  | fault (f : Fault)
  /-- The computation was given too little fuel to end. -/
  | outOfFuel
deriving DecidableEq

/-- The stop as it leaves an expression. -/
def Stop.leaving (stop : Stop) (span : Span) : Stop :=
  match stop with
  | fault f => .fault (f.leaving span)
  | outOfFuel => .outOfFuel

/-- Computations that read and change the state and may stop. -/
abbrev Eval := EStateM Stop State

namespace Eval

/-- Ends the evaluation with a fault that has no span yet. -/
@[inline] def fail {α : Type} (cause : FaultCause) : Eval α := throw (.fault ⟨cause, none⟩)

/-- The result of an operation that needs no state. -/
@[inline] def lift {α : Type} (result : Except FaultCause α) : Eval α :=
  match result with
  | .ok a => pure a
  | .error cause => fail cause

/-- Changes the counters. -/
@[inline] def count (step : Counters → Counters) : Eval Unit :=
  modify fun s => { s with counters := step s.counters }

/-- An unused tag. -/
@[inline] def freshTag : Eval Nat :=
  modifyGet fun s =>
    let (tag, store) := s.store.freshTag
    (tag, { s with store })

/-- Runs a computation one level deeper, on behalf of an expression with the given span.  The level
is left again however the computation ends, and a fault without a span gets that span. -/
@[inline] def within {α : Type} (limit : Option Nat) (span : Span) (body : Eval α) : Eval α := fun s =>
  match s.depth.enter limit with
  | .error n => .error (.fault ⟨.recursionLimit n, none⟩) s
  | .ok depth =>
    match body { s with depth } with
    | .ok a s => .ok a { s with depth := s.depth.leave }
    | .error stop s => .error (stop.leaving span) { s with depth := s.depth.leave }

end Eval

end PolicyEval
