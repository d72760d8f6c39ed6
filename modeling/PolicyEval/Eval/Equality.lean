import PolicyEval.Eval.Thunk

/-!
# Equality

Two values are equal if they look the same in every part: integers, truth values and primitives by
themselves, lists part by part, closures if they are made of the same function and their
environments bind the same names to equal values.  Parts that are delayed are forced on the way.

Comparing stops at identity: one and the same list cell, closure or chain of frames is equal to
itself and is not looked into, so a list that is infinite or holds a failing part equals itself.

The parts still to be compared are kept in a list that is worked off from its front.
-/

namespace PolicyEval

/-- Two things still to be compared. -/
inductive Comparison where
  /-- Two values. -/
  | values (left right : Value)
  /-- The second parts of two list cells. -/
  | tails (left right : Thunk)
  /-- Two environments. -/
  | envs (left right : Env)

/-- Compares all that is still to be compared.  The fuel bounds the number of comparisons. -/
def compareAll (ev : Evaluator) : Nat → List Comparison → Eval Bool
  | 0, _ => throw .outOfFuel
  | _ + 1, [] => pure true
  | fuel + 1, .values left right :: todo =>
    match left, right with
    | .int a, .int b => if a = b then compareAll ev fuel todo else pure false
    | .bool a, .bool b => if a = b then compareAll ev fuel todo else pure false
    | .prim a, .prim b => if a = b then compareAll ev fuel todo else pure false
    | .closure a f env, .closure b g env' =>
      if f.place.id ≠ g.place.id then pure false
      else if a = b then compareAll ev fuel todo
      else compareAll ev fuel (.envs env env' :: todo)
    | .nil, .nil => compareAll ev fuel todo
    | .cons a head tail, .cons b head' tail' =>
      if a = b then compareAll ev fuel todo
      else do
        let x ← force ev head
        let y ← force ev head'
        compareAll ev fuel (.values x y :: .tails tail tail' :: todo)
    | _, _ => pure false
  | fuel + 1, .tails left right :: todo => do
    let x ← forceTail ev left
    let y ← forceTail ev right
    compareAll ev fuel (.values x y :: todo)
  | fuel + 1, .envs left right :: todo =>
    if left.same right then compareAll ev fuel todo
    else
      match left, right with
      | .frame _ name thunk rest, .frame _ name' thunk' rest' =>
        if name.same name' then do
          let x ← force ev thunk
          let y ← force ev thunk'
          compareAll ev fuel (.values x y :: .envs rest rest' :: todo)
        else pure false
      | _, _ => pure false

/-- Whether two values are equal. -/
def equal (ev : Evaluator) (fuel : Nat) (left right : Value) : Eval Bool :=
  compareAll ev fuel [.values left right]

end PolicyEval
