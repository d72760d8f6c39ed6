import PolicyEval.Proofs.Policy.Delivery

/-!
# Comparing in full

Comparing stops at identity, and what is identical depends on what was kept.  Evaluation is taken
here with a say of its own in what is one and the same.  With the say of the store it is the
evaluation as it is.  With the say that nothing is, comparisons look through both sides in full, and
a success no longer rests on results that were kept.

* `Plan.follow` — meets the requests of a plan, comparing in a given way.
* `compareWith`, `evalWith`, `runWith` — comparing, evaluating and running with a say.
* `runWith_identical` — with the say of the store this is running.
* `DeliversInFull` — a program succeeds with a text though its comparisons look through everything.
-/

namespace PolicyEval

namespace Plan

variable {α β : Type}

/-- Meets the requests of a plan in the state of an evaluation, comparing in the given way. -/
@[simp] def follow (ev : Evaluator) (compareIn : List Comparison → Eval Bool) : Plan α → Eval α
  | done a => pure a
  | fail cause => Eval.fail cause
  | count step next => do
    Eval.count step
    next.follow ev compareIn
  | eval setting env e next => do
    let v ← ev setting env e
    (next v).follow ev compareIn
  | force thunk next => do
    let v ← PolicyEval.force ev thunk
    (next v).follow ev compareIn
  | delay d setting env e next => do
    let thunk ← PolicyEval.delay ev d setting env e
    (next thunk).follow ev compareIn
  | cell head tail next => do
    let tag ← Eval.freshTag
    (next (.cons tag head tail)).follow ev compareIn
  | closure lambda env next => do
    let tag ← Eval.freshTag
    (next (.closure tag lambda env)).follow ev compareIn
  | extend env bindings next => do
    let inner ← Eval.extend env bindings
    (next inner).follow ev compareIn
  | compare todo next => do
    let b ← compareIn todo
    (next b).follow ev compareIn

theorem follow_lift (ev : Evaluator) (compareIn : List Comparison → Eval Bool)
    (result : Except FaultCause β) (next : β → Plan α) :
    (lift result next).follow ev compareIn =
      Eval.lift result >>= fun b => (next b).follow ev compareIn := by
  cases result with
  | ok b => simp only [lift, Eval.lift, pure_bind]
  | error cause => rfl

/-- Running a plan is following it with the comparisons of the evaluator. -/
theorem run_eq_follow (ev : Evaluator) (loop : Nat) (p : Plan α) :
    p.run ev loop = p.follow ev (compareAll ev loop) := by
  induction p with
  | done | fail => rfl
  | count _ _ ih => simp only [run, follow, ih]
  | eval _ _ _ _ ih | force _ _ ih | delay _ _ _ _ _ ih | cell _ _ _ ih | closure _ _ _ ih
  | extend _ _ _ ih | compare _ _ ih => simp only [run, follow, ih]

end Plan

/-! ## Evaluating with a say -/

section

variable (same : Comparison → Bool)

/-- Compares all that is still to be compared, where `same` says what is one and the same. -/
def compareWith (ev : Evaluator) : Nat → List Comparison → Eval Bool
  | 0, _ => throw .outOfFuel
  | fuel + 1, todo => (stepPlan same todo).follow ev (compareWith ev fuel)

/-- The evaluator with the given amount of fuel, where `same` says what is one and the same. -/
def evalWith : Nat → Evaluator
  | 0, _, _, _ => throw .outOfFuel
  | fuel + 1, setting, env, e =>
    Eval.within setting.maxDepth e.span
      ((Plan.count Counters.countExpression (e.plan setting env)).follow (evalWith fuel)
        (compareWith same (evalWith fuel) fuel))

/-- The text of a program's value, where `same` says what is one and the same. -/
def runWith (fuel : Nat) (config : Config) (root : Expr) : Eval String :=
  (programPlan config root).follow (evalWith same fuel) (compareWith same (evalWith same fuel) fuel)

end

theorem compareWith_identical (ev : Evaluator) (fuel : Nat) (todo : List Comparison) :
    compareWith Comparison.identical ev fuel todo = compareAll ev fuel todo := by
  induction fuel generalizing todo with
  | zero => rfl
  | succ fuel ih =>
      have hrest : compareWith Comparison.identical ev fuel = compareAll ev fuel := funext ih
      rw [compareWith, compareAll_succ, Plan.run_eq_follow, hrest]

theorem evalWith_identical (fuel : Nat) : evalWith Comparison.identical fuel = eval fuel := by
  induction fuel with
  | zero => rfl
  | succ fuel ih =>
      funext setting env e
      have hcompare : compareWith Comparison.identical (eval fuel) fuel =
          compareAll (eval fuel) fuel := funext (compareWith_identical _ _)
      rw [evalWith, eval_succ, Plan.run_eq_follow, ih, hcompare]

/-- With the say of the store, running with a say is running. -/
theorem runWith_identical (fuel : Nat) (config : Config) (root : Expr) :
    runWith Comparison.identical fuel config root = runProgram fuel config root := by
  have hcompare : compareWith Comparison.identical (eval fuel) fuel =
      compareAll (eval fuel) fuel := funext (compareWith_identical _ _)
  rw [runWith, runProgram_eq_run, Plan.run_eq_follow, evalWith_identical, hcompare]

/-! ## Nothing is one and the same -/

/-- The say that nothing is one and the same. -/
def Comparison.inFull : Comparison → Bool := fun _ => false

/-- The evaluator that compares in full. -/
abbrev evalInFull (fuel : Nat) : Evaluator := evalWith Comparison.inFull fuel

/-- The comparisons of the evaluator that compares in full; `loop` bounds their number. -/
abbrev compareInFull (fuel loop : Nat) : List Comparison → Eval Bool :=
  compareWith Comparison.inFull (evalInFull fuel) loop

/-- With some fuel, a program that starts on a store ends successfully with the given text, though
its comparisons look through both sides in full. -/
def DeliversInFull (config : Config) (store : Store) (root : Expr) (text : String) : Prop :=
  ∃ fuel, ((runWith Comparison.inFull fuel config root).report store).result = .ok text

end PolicyEval
