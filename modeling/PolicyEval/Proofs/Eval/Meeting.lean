import PolicyEval.Eval.Equality

/-!
# One step of a comparison

Comparing looks at the outermost layers of two things.  Apart from identity, which settles the
matter at once, the layers decide it, or leave environments to be compared, or leave two thunks to
be forced and compared before the rest is.

* `Meeting` — what the outermost layers of two things say.
* `Value.meet`, `Env.meet` — the meeting of two values or environments, identity left aside.
* `compareAll_values`, `compareAll_envs` — comparing follows the meeting.
-/

namespace PolicyEval

/-- What the outermost layers of two things say about their equality. -/
inductive Meeting where
  /-- They are equal. -/
  | equal
  /-- They are not equal. -/
  | unequal
  /-- They are equal if two environments are. -/
  | envs (left right : Env)
  /-- They are equal if the values of two thunks are and what comes next compares as equal. -/
  | parts (left right : Thunk) (next : Comparison)

/-- Two closures or two list cells that were made by the same step. -/
def Value.identical : Value → Value → Bool
  | .closure a f _, .closure b g _ => decide (f.place.id = g.place.id) && decide (a = b)
  | .cons a _ _, .cons b _ _ => decide (a = b)
  | _, _ => false

/-- The meeting of two values that were made by different steps. -/
def Value.meet : Value → Value → Meeting
  | .int a, .int b => if a = b then .equal else .unequal
  | .bool a, .bool b => if a = b then .equal else .unequal
  | .prim a, .prim b => if a = b then .equal else .unequal
  | .closure _ f env, .closure _ g env' =>
    if f.place.id = g.place.id then .envs env env' else .unequal
  | .nil, .nil => .equal
  | .cons _ head tail, .cons _ head' tail' => .parts head head' (.tails tail tail')
  | _, _ => .unequal

/-- The meeting of two environments that are not the same chain of frames. -/
def Env.meet : Env → Env → Meeting
  | .empty, .empty => .equal
  | .frame _ name thunk rest, .frame _ name' thunk' rest' =>
    if name.same name' then .parts thunk thunk' (.envs rest rest') else .unequal
  | _, _ => .unequal

/-- Goes on with what a meeting leaves to be compared. -/
def Meeting.proceed (ev : Evaluator) (fuel : Nat) (todo : List Comparison) : Meeting → Eval Bool
  | .equal => compareAll ev fuel todo
  | .unequal => pure false
  | .envs left right => compareAll ev fuel (.envs left right :: todo)
  | .parts left right next => do
    let x ← force ev left
    let y ← force ev right
    compareAll ev fuel (.values x y :: next :: todo)

theorem compareAll_values (ev : Evaluator) (fuel : Nat) (left right : Value)
    (todo : List Comparison) :
    compareAll ev (fuel + 1) (.values left right :: todo) =
      if left.identical right then compareAll ev fuel todo
      else (left.meet right).proceed ev fuel todo := by
  cases left <;> cases right <;> simp only [compareAll, Value.identical, Value.meet] <;>
    grind [Meeting.proceed]

theorem compareAll_envs (ev : Evaluator) (fuel : Nat) (left right : Env)
    (todo : List Comparison) :
    compareAll ev (fuel + 1) (.envs left right :: todo) =
      if left.same right then compareAll ev fuel todo
      else (left.meet right).proceed ev fuel todo := by
  cases left <;> cases right <;> simp only [compareAll, Env.meet] <;>
    grind [Meeting.proceed, Env.same]

theorem compareAll_tails (ev : Evaluator) (fuel : Nat) (left right : Thunk)
    (todo : List Comparison) :
    compareAll ev (fuel + 1) (.tails left right :: todo) =
      (do
        let x ← forceTail ev left
        let y ← forceTail ev right
        compareAll ev fuel (.values x y :: todo)) := by
  rw [compareAll]

end PolicyEval
